/-!
# Tables

A `Table κ υ` holds at most one value per key and lists its entries in key order. Looking a key up
goes by equality alone, so `get?_insert` and `get?_erase` need no law of the order; the order decides
only how the entries are listed.
-/
namespace Valuation

/-- Entries in key order, one per key. -/
structure Table (κ υ : Type) where
  entries : List (κ × υ) := []
deriving DecidableEq

namespace Table

variable {κ υ : Type}

instance : EmptyCollection (Table κ υ) := ⟨⟨[]⟩⟩

instance : Inhabited (Table κ υ) := ⟨∅⟩

instance [BEq κ] [BEq υ] : BEq (Table κ υ) := ⟨fun s t => s.entries == t.entries⟩

/-! ## Reading -/

/-- The value of the first entry with a key. -/
def find [DecidableEq κ] (key : κ) : List (κ × υ) → Option υ
  | [] => none
  | (k, v) :: rest => if k = key then some v else find key rest

/-- The value filed under a key. -/
def get? [DecidableEq κ] (t : Table κ υ) (key : κ) : Option υ := find key t.entries

def contains [DecidableEq κ] (t : Table κ υ) (key : κ) : Bool := (t.get? key).isSome

def toList (t : Table κ υ) : List (κ × υ) := t.entries

def keys (t : Table κ υ) : List κ := t.entries.map (·.1)

def values (t : Table κ υ) : List υ := t.entries.map (·.2)

def size (t : Table κ υ) : Nat := t.entries.length

def isEmpty (t : Table κ υ) : Bool := t.entries.isEmpty

/-! ## Writing -/

/-- Files an entry before the first greater key, or in the place of its own key. -/
def place [DecidableEq κ] [Ord κ] (key : κ) (value : υ) : List (κ × υ) → List (κ × υ)
  | [] => [(key, value)]
  | (k, v) :: rest =>
    if k = key then (key, value) :: rest
    else if (compare key k).isLT then (key, value) :: (k, v) :: rest
    else (k, v) :: place key value rest

/-- Files a value under a key, in the place of an earlier one. -/
def insert [DecidableEq κ] [Ord κ] (t : Table κ υ) (key : κ) (value : υ) : Table κ υ :=
  ⟨place key value t.entries⟩

/-- Files a value under a key that has none; an earlier value stays. -/
def insertNew [DecidableEq κ] [Ord κ] (t : Table κ υ) (key : κ) (value : υ) : Table κ υ :=
  if t.contains key then t else t.insert key value

/-- Files all pairs in turn, so the last value of a repeated key stays. -/
def insertAll [DecidableEq κ] [Ord κ] (t : Table κ υ) (pairs : List (κ × υ)) : Table κ υ :=
  pairs.foldl (fun t e => t.insert e.1 e.2) t

def ofList [DecidableEq κ] [Ord κ] (pairs : List (κ × υ)) : Table κ υ :=
  insertAll ∅ pairs

/-- Removes the entry of a key, if there is one. -/
def erase [DecidableEq κ] (t : Table κ υ) (key : κ) : Table κ υ :=
  ⟨t.entries.filter fun e => e.1 ≠ key⟩

/-- Keeps the entries whose key passes a test, which is made in key order. -/
def filterKeysM {μ : Type → Type} [Monad μ] (keep : κ → μ Bool) (t : Table κ υ) : μ (Table κ υ) :=
  return ⟨← t.entries.filterM fun e => keep e.1⟩

/-- Changes the value of a key, if there is one. -/
def modify [DecidableEq κ] [Ord κ] (t : Table κ υ) (key : κ) (f : υ → υ) : Table κ υ :=
  match t.get? key with
  | some v => t.insert key (f v)
  | none => t

/-! ## Laws of the view `get?` -/

variable [DecidableEq κ]

@[simp] theorem get?_empty (key : κ) : (∅ : Table κ υ).get? key = none := rfl

theorem find_place [Ord κ] (key k : κ) (value : υ) (es : List (κ × υ)) :
    find k (place key value es) = if key = k then some value else find k es := by
  induction es with
  | nil => simp [place, find]
  | cons e es ih =>
    obtain ⟨a, v⟩ := e
    unfold place
    split
    · next h => subst h; by_cases h : a = k <;> simp [find, h]
    · next ha =>
      split
      · by_cases h : key = k <;> simp [find, h]
      · by_cases h : a = k
        · simp [find, h, show key ≠ k from fun hk => ha (h.trans hk.symm)]
        · simp [find, h, ih]

@[simp] theorem get?_insert [Ord κ] (t : Table κ υ) (key k : κ) (value : υ) :
    (t.insert key value).get? k = if key = k then some value else t.get? k :=
  find_place key k value t.entries

theorem find_filter_ne (key k : κ) (es : List (κ × υ)) :
    find k (es.filter fun e => e.1 ≠ key) = if key = k then none else find k es := by
  induction es with
  | nil => simp [find]
  | cons e es ih =>
    obtain ⟨a, v⟩ := e
    by_cases ha : a = key
    · subst ha
      by_cases hk : a = k <;> simp_all [find]
    · by_cases hk : a = k
      · subst hk
        simp [find, ha, show key ≠ a from fun h => ha h.symm]
      · simp_all [find]

@[simp] theorem get?_erase (t : Table κ υ) (key k : κ) :
    (t.erase key).get? k = if key = k then none else t.get? k :=
  find_filter_ne key k t.entries

theorem get?_insertNew [Ord κ] (t : Table κ υ) (key k : κ) (value : υ) :
    (t.insertNew key value).get? k
      = if t.contains key then t.get? k else if key = k then some value else t.get? k := by
  unfold insertNew
  split <;> simp

end Table
end Valuation
