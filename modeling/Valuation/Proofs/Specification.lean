import Valuation.Proofs.OrderedSet
import Valuation.Specification

/-!
# The order of specifications

Specifications are ordered by target, name and properties, and market data keys by target and field. Both
orders are transitive and tell unequal elements apart, as the orders that they are made of do.
-/
namespace Valuation

open Std

theorem transOrd_of_eq {α : Type} [Ord α] {cmp : α → α → Ordering} [hcmp : TransCmp cmp]
    (h : (compare : α → α → Ordering) = cmp) : TransOrd α := by
  unfold TransOrd
  rwa [h]

theorem lawfulEqOrd_of_eq {α : Type} [Ord α] [TransOrd α] {cmp : α → α → Ordering}
    (h : (compare : α → α → Ordering) = cmp) (heq : ∀ {x y}, cmp x y = .eq → x = y) : LawfulEqOrd α where
  compare_self := compare_self
  eq_of_compare hxy := heq (h ▸ hxy)

/-! ## Targets -/

theorem compare_targetKind : (compare : TargetKind → TargetKind → Ordering) = compareOn TargetKind.ctorIdx :=
  rfl

instance : TransOrd TargetKind := transOrd_of_eq compare_targetKind

instance : LawfulEqOrd TargetKind := lawfulEqOrd_of_eq compare_targetKind fun {k l} h => by
  have hindex : k.ctorIdx = l.ctorIdx := LawfulEqCmp.eq_of_compare h
  rw [← TargetKind.ofNat_ctorIdx k, hindex, TargetKind.ofNat_ctorIdx]

theorem compare_targetId : (compare : TargetId → TargetId → Ordering) = compareOn TargetId.text :=
  funext fun _ => funext fun _ => Ordering.then_eq

instance : TransOrd TargetId := transOrd_of_eq compare_targetId

instance : LawfulEqOrd TargetId :=
  lawfulEqOrd_of_eq compare_targetId fun h => congrArg TargetId.mk (LawfulEqCmp.eq_of_compare h)

theorem compare_target : (compare : Target → Target → Ordering) =
    compareLex (compareOn Target.kind) (compareOn Target.id) :=
  funext fun t => funext fun u => congrArg (compare t.kind u.kind).then Ordering.then_eq

instance : TransOrd Target := transOrd_of_eq compare_target

instance : LawfulEqOrd Target := lawfulEqOrd_of_eq compare_target fun {t u} h => by
  obtain ⟨hkind, hid⟩ := Ordering.then_eq_eq.1 h
  have hkind : t.kind = u.kind := LawfulEqCmp.eq_of_compare hkind
  have hid : t.id = u.id := LawfulEqCmp.eq_of_compare hid
  cases t
  cases u
  simp_all

/-! ## Market data keys -/

theorem compare_marketDataKey : (compare : MarketDataKey → MarketDataKey → Ordering) =
    compareLex (compareOn MarketDataKey.target) (compareOn MarketDataKey.field) :=
  funext fun k => funext fun l => congrArg (compare k.target l.target).then Ordering.then_eq

instance : TransOrd MarketDataKey := transOrd_of_eq compare_marketDataKey

instance : LawfulEqOrd MarketDataKey := lawfulEqOrd_of_eq compare_marketDataKey fun {k l} h => by
  obtain ⟨htarget, hfield⟩ := Ordering.then_eq_eq.1 h
  have htarget : k.target = l.target := LawfulEqCmp.eq_of_compare htarget
  have hfield : k.field = l.field := LawfulEqCmp.eq_of_compare hfield
  cases k
  cases l
  simp_all

/-! ## Specifications -/

/-- Entries are compared by their name first. -/
def Properties.compareEntry : String × String → String × String → Ordering :=
  compareLex (compareOn Prod.fst) (compareOn Prod.snd)

instance : TransCmp Properties.compareEntry :=
  inferInstanceAs (TransCmp (compareLex (compareOn Prod.fst) (compareOn Prod.snd)))

instance : LawfulEqCmp Properties.compareEntry where
  compare_self := ReflCmp.compare_self
  eq_of_compare {e f} h := by
    obtain ⟨hname, htext⟩ := Ordering.then_eq_eq.1 h
    exact Prod.ext (LawfulEqCmp.eq_of_compare hname) (LawfulEqCmp.eq_of_compare htext)

theorem Properties.compareEntries_eq : compareEntries = List.compareLex compareEntry := by
  refine funext fun es => funext fun fs => ?_
  induction es generalizing fs with
  | nil =>
    cases fs with
    | nil => rfl
    | cons f fs => rfl
  | cons e es ih =>
    cases fs with
    | nil => rfl
    | cons f fs =>
      rw [compareEntries, List.compareLex_cons_cons, ih, ← Ordering.then_assoc]
      rfl

instance : TransOrd Properties where
  eq_swap {p q} := by
    change Properties.compareEntries _ _ = (Properties.compareEntries _ _).swap
    rw [Properties.compareEntries_eq]
    exact OrientedCmp.eq_swap
  isLE_trans {p q r} hpq hqr := by
    change (Properties.compareEntries _ _).isLE = true at hpq hqr ⊢
    rw [Properties.compareEntries_eq] at hpq hqr ⊢
    exact TransCmp.isLE_trans hpq hqr

instance : LawfulEqOrd Properties where
  compare_self := compare_self
  eq_of_compare {p q} h := by
    change Properties.compareEntries _ _ = .eq at h
    rw [Properties.compareEntries_eq] at h
    have hentries : p.entries = q.entries := LawfulEqCmp.eq_of_compare h
    exact congrArg Table.mk hentries

theorem compare_specification : (compare : Specification → Specification → Ordering) =
    compareLex (compareOn Specification.target)
      (compareLex (compareOn Specification.name) (compareOn Specification.properties)) := by
  refine funext fun s => funext fun t => ?_
  change (compare s.target t.target).then ((compare s.name t.name).then
    ((compare s.properties t.properties).then .eq)) = _
  rw [Ordering.then_eq]
  rfl

instance : TransOrd Specification := transOrd_of_eq compare_specification

instance : LawfulEqOrd Specification := lawfulEqOrd_of_eq compare_specification fun {s t} h => by
  obtain ⟨htarget, h⟩ := Ordering.then_eq_eq.1 h
  obtain ⟨hname, hproperties⟩ := Ordering.then_eq_eq.1 h
  have htarget : s.target = t.target := LawfulEqCmp.eq_of_compare htarget
  have hname : s.name = t.name := LawfulEqCmp.eq_of_compare hname
  have hproperties : s.properties = t.properties := LawfulEqCmp.eq_of_compare hproperties
  cases s
  cases t
  simp_all

end Valuation
