/-!
# Ordered sets

An `OrderedSet κ` lists its elements in order, each once. Membership goes by equality alone
(`mem_insert`), the order decides only how the elements are listed.
-/
namespace Valuation

/-- Elements in order, each once. -/
structure OrderedSet (κ : Type) where
  elements : List κ := []
deriving DecidableEq

namespace OrderedSet

variable {κ : Type}

instance : EmptyCollection (OrderedSet κ) := ⟨⟨[]⟩⟩

instance : Inhabited (OrderedSet κ) := ⟨∅⟩

instance : Membership κ (OrderedSet κ) := ⟨fun s x => x ∈ s.elements⟩

instance [DecidableEq κ] (s : OrderedSet κ) (x : κ) : Decidable (x ∈ s) :=
  inferInstanceAs (Decidable (x ∈ s.elements))

def contains [DecidableEq κ] (s : OrderedSet κ) (x : κ) : Bool := decide (x ∈ s)

def toList (s : OrderedSet κ) : List κ := s.elements

/-- Puts an element before the first greater one, unless it is there. -/
def place [DecidableEq κ] [Ord κ] (x : κ) : List κ → List κ
  | [] => [x]
  | y :: rest =>
    if y = x then y :: rest
    else if (compare x y).isLT then x :: y :: rest
    else y :: place x rest

def insert [DecidableEq κ] [Ord κ] (s : OrderedSet κ) (x : κ) : OrderedSet κ := ⟨place x s.elements⟩

def insertAll [DecidableEq κ] [Ord κ] (s : OrderedSet κ) (xs : List κ) : OrderedSet κ :=
  xs.foldl insert s

def ofList [DecidableEq κ] [Ord κ] (xs : List κ) : OrderedSet κ := insertAll ∅ xs

variable [DecidableEq κ] [Ord κ]

theorem mem_place (x y : κ) (ys : List κ) : x ∈ place y ys ↔ x = y ∨ x ∈ ys := by
  induction ys with
  | nil => simp [place]
  | cons z zs ih =>
    unfold place
    split
    · next h => subst h; simp
    · split
      · simp
      · simp only [List.mem_cons, ih]
        constructor
        · rintro (h | h | h) <;> simp [h]
        · rintro (h | h | h) <;> simp [h]

@[simp] theorem mem_insert (s : OrderedSet κ) (x y : κ) : x ∈ s.insert y ↔ x = y ∨ x ∈ s :=
  mem_place x y s.elements

@[simp] theorem mem_insertAll (s : OrderedSet κ) (xs : List κ) (x : κ) :
    x ∈ s.insertAll xs ↔ x ∈ s ∨ x ∈ xs := by
  induction xs generalizing s with
  | nil => simp [insertAll]
  | cons y ys ih =>
    have := ih (s.insert y)
    simp only [insertAll, List.foldl_cons] at this ⊢
    rw [this, mem_insert, List.mem_cons]
    constructor
    · rintro ((h | h) | h) <;> simp [h]
    · rintro (h | h | h) <;> simp [h]

end OrderedSet
end Valuation
