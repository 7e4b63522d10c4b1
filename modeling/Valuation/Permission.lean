import Valuation.ResultModel

/-!
# Permissions

Who may see which part of a result model. The permissive provider shows everything. The entitlement
provider asks a source about each target that a model mentions, once; a denial and a failing source
both hide the target.
-/
namespace Valuation

/-- Someone who looks at results. -/
structure UserPrincipal where
  userName : String
  ipAddress : String
deriving DecidableEq, Ord, Inhabited

namespace UserPrincipal

/-- A user on this machine. -/
def onThisMachine (userName : String) : UserPrincipal := ⟨userName, "127.0.0.1"⟩

def display (u : UserPrincipal) : String := u.userName ++ "@" ++ u.ipAddress

end UserPrincipal

/-! ## Sources of entitlements -/

/-- Whether a user may see a target. -/
structure Question where
  user : UserPrincipal
  target : Target
deriving DecidableEq, Inhabited

/-- Answers questions. What it answers may depend on what it has been asked before. -/
abbrev EntitlementSource := List Question → Question → Except ServiceError Bool

/-- A source whose answers are fixed. -/
def EntitlementSource.fixed (answer : UserPrincipal → Target → Except ServiceError Bool) :
    EntitlementSource :=
  fun _ q => answer q.user q.target

/-- What filtering a model has decided, and which targets it has asked about, in turn. -/
structure Inquiry where
  decisions : Table Target Bool := ∅
  asked : List Target := []
deriving Inhabited

namespace Inquiry

/-- Only an explicit yes grants a target. -/
def grants : Except ServiceError Bool → Bool
  | .ok true => true
  | _ => false

/-- Whether a user may see a target. The source is asked unless that has been decided before. -/
def ask (source : EntitlementSource) (u : UserPrincipal) (t : Target) : StateM Inquiry Bool := do
  let q ← get
  match q.decisions.get? t with
  | some granted => return granted
  | none =>
    let granted := grants (source (q.asked.map (⟨u, ·⟩)) ⟨u, t⟩)
    set { decisions := q.decisions.insert t granted, asked := q.asked ++ [t] : Inquiry }
    return granted

end Inquiry

/-! ## Policies and providers -/

inductive PermissionPolicy where
  | permissive
  | entitlement
deriving DecidableEq, Inhabited

namespace PermissionPolicy

def name : PermissionPolicy → String
  | .permissive => "permissive"
  | .entitlement => "entitlement"

end PermissionPolicy

inductive PermissionProvider where
  | permissive
  | entitlement (source : EntitlementSource)

namespace PermissionProvider

def name : PermissionProvider → String
  | .permissive => "permissive"
  | .entitlement _ => "entitlement"

/-- The provider of a policy; asking for entitlements takes a source to ask. -/
def ofPolicy : PermissionPolicy → Option EntitlementSource → Except EngineError PermissionProvider
  | .permissive, _ => .ok .permissive
  | .entitlement, some source => .ok (.entitlement source)
  | .entitlement, none =>
    .error (.config "entitlement permission policy requires an entitlement source")

/-- The part of a model that a user may see, and the targets that were asked about, in turn. -/
def filter (p : PermissionProvider) (u : UserPrincipal) (m : ResultModel) : ResultModel × List Target :=
  match p with
  | .permissive => (m, [])
  | .entitlement source =>
    let (m, q) := (m.retainTargetsM (Inquiry.ask source u)).run {}
    (m, q.asked)

end PermissionProvider
end Valuation
