import Valuation.Identifier

/-!
# Targets

What a value is about: a portfolio node, a position, a security, a trade, or a primitive such as a
currency. Targets are ordered by kind, then by identifier.
-/
namespace Valuation

inductive TargetKind where
  | portfolioNode
  | position
  | security
  | trade
  | primitive
deriving DecidableEq, Ord, Inhabited

namespace TargetKind

def all : List TargetKind := [.portfolioNode, .position, .security, .trade, .primitive]

def display : TargetKind → String
  | .portfolioNode => "PORTFOLIO_NODE"
  | .position => "POSITION"
  | .security => "SECURITY"
  | .trade => "TRADE"
  | .primitive => "PRIMITIVE"

/-- The kind with a given name. -/
def ofText? (text : String) : Option TargetKind := all.find? fun k => k.display = text

theorem ofText?_display (k : TargetKind) : ofText? k.display = some k := by
  cases k <;> decide

end TargetKind

structure Target where
  kind : TargetKind
  id : TargetId
deriving DecidableEq, Ord, Inhabited

namespace Target

def position (id : String) : Target := ⟨.position, ⟨id⟩⟩

def display (t : Target) : String := t.kind.display ++ ":" ++ t.id.text

/-- The target of a display text: the kind is what stands before the first colon. -/
def ofText? (text : String) : Option Target :=
  let cs := text.toList
  match cs.dropWhile (· ≠ ':') with
  | [] => none
  | _ :: id =>
    (TargetKind.ofText? (String.ofList (cs.takeWhile (· ≠ ':')))).map fun k => ⟨k, ⟨String.ofList id⟩⟩

end Target
end Valuation
