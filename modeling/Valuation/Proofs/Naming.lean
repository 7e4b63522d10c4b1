import Valuation.ResultModel

/-!
# When names tell values apart

A value is filed under its name and its properties, and a failure is shown under the text of its specification.
These texts are put together from parts with marks between them, and a part may contain a mark itself, so two
specifications can have one text. Where no part contains the mark that ends it, the parts can be read off the text
(`Specification.eq_of_resultKey_eq`, `Specification.eq_of_display_eq`).
-/
namespace Valuation

/-- The part before a mark that does not occur in it is what stands before the first mark. -/
theorem append_inj_of_mark {α : Type} {mark : α} {xs xs' ys ys' : List α} (hxs : mark ∉ xs) (hxs' : mark ∉ xs')
    (hys : ∀ y ∈ ys.head?, y = mark) (hys' : ∀ y ∈ ys'.head?, y = mark) (h : xs ++ ys = xs' ++ ys') :
    xs = xs' ∧ ys = ys' := by
  induction xs generalizing xs' with
  | nil =>
    cases xs' with
    | nil => exact ⟨rfl, h⟩
    | cons x' xs' =>
      have hhead : x' = mark := hys x' (by rw [show ys = x' :: (xs' ++ ys') from h]; rfl)
      exact absurd (hhead ▸ List.mem_cons_self ..) hxs'
  | cons x xs ih =>
    cases xs' with
    | nil =>
      have hhead : x = mark := hys' x (by rw [show ys' = x :: (xs ++ ys) from h.symm]; rfl)
      exact absurd (hhead ▸ List.mem_cons_self ..) hxs
    | cons x' xs' =>
      obtain ⟨rfl, htail⟩ := List.cons.inj h
      rw [List.mem_cons, not_or] at hxs hxs'
      obtain ⟨rfl, hrest⟩ := ih hxs.2 hxs'.2 htail
      exact ⟨rfl, hrest⟩

/-! ## Properties -/

namespace Properties

/-- No name of a property contains the mark behind it, nor does a text. -/
def Plain (p : Properties) : Prop := ∀ e ∈ p.toList, '=' ∉ e.1.toList ∧ ',' ∉ e.2.toList

instance (p : Properties) : Decidable p.Plain :=
  inferInstanceAs (Decidable (∀ e ∈ p.toList, '=' ∉ e.1.toList ∧ ',' ∉ e.2.toList))

/-- Entries with a comma before each. -/
def listed : List (String × String) → List Char
  | [] => []
  | (name, text) :: es => ',' :: (name.toList ++ '=' :: (text.toList ++ listed es))

theorem head?_listed (es : List (String × String)) : ∀ c ∈ (listed es).head?, c = ',' := by
  cases es with
  | nil => simp [listed]
  | cons e es => simp [listed]

theorem listed_inj {es fs : List (String × String)}
    (hes : ∀ e ∈ es, '=' ∉ e.1.toList ∧ ',' ∉ e.2.toList) (hfs : ∀ e ∈ fs, '=' ∉ e.1.toList ∧ ',' ∉ e.2.toList)
    (h : listed es = listed fs) : es = fs := by
  induction es generalizing fs with
  | nil =>
    cases fs with
    | nil => rfl
    | cons f fs => cases h
  | cons e es ih =>
    cases fs with
    | nil => cases h
    | cons f fs =>
      rw [List.forall_mem_cons] at hes hfs
      obtain ⟨hname, hafter⟩ := append_inj_of_mark hes.1.1 hfs.1.1 (by simp) (by simp) (List.cons.inj h).2
      obtain ⟨htext, hrest⟩ := append_inj_of_mark hes.1.2 hfs.1.2 (head?_listed es) (head?_listed fs)
        (List.cons.inj hafter).2
      have hentry : e = f := Prod.ext (String.toList_inj.1 hname) (String.toList_inj.1 htext)
      rw [hentry, ih hes.2 hfs.2 hrest]

theorem cons_intercalate (e : String × String) (es : List (String × String)) :
    ',' :: (",".intercalate ((e :: es).map fun e => e.1 ++ "=" ++ e.2)).toList = listed (e :: es) := by
  induction es generalizing e with
  | nil => simp [listed]
  | cons f fs ih =>
    have hrest := ih f
    simp only [String.toList_intercalate, List.map_cons, String.toList_append] at hrest ⊢
    rw [List.intercalate_cons_cons, listed, ← hrest]
    simp

/-- What properties add to a text: nothing if there are none. -/
def suffix (p : Properties) : String := if p.isEmpty then "" else p.display

theorem head?_suffix (p : Properties) : ∀ c ∈ p.suffix.toList.head?, c = '\x7b' := by
  unfold suffix
  split
  · simp
  · simp [display]

theorem eq_of_suffix_eq {p q : Properties} (hp : p.Plain) (hq : q.Plain) (h : p.suffix = q.suffix) : p = q := by
  obtain ⟨es⟩ := p
  obtain ⟨fs⟩ := q
  refine congrArg Table.mk ?_
  cases es with
  | nil =>
    cases fs with
    | nil => rfl
    | cons f fs => exact absurd (congrArg String.toList h) (by simp [suffix, Table.isEmpty, display])
  | cons e es =>
    cases fs with
    | nil => exact absurd (congrArg String.toList h) (by simp [suffix, Table.isEmpty, display])
    | cons f fs =>
      have hbraces : (",".intercalate ((e :: es).map fun e => e.1 ++ "=" ++ e.2)).toList ++ ['\x7d'] =
          (",".intercalate ((f :: fs).map fun e => e.1 ++ "=" ++ e.2)).toList ++ ['\x7d'] := by
        have hchars := congrArg String.toList h
        simpa [suffix, Table.isEmpty, display, Table.toList] using hchars
      refine listed_inj hp hq ?_
      rw [← cons_intercalate, ← cons_intercalate, List.append_cancel_right hbraces]

end Properties

/-! ## Targets -/

theorem TargetKind.display_inj {k l : TargetKind} (h : k.display = l.display) : k = l :=
  Option.some.inj ((ofText?_display k).symm.trans (h ▸ ofText?_display l))

theorem Target.eq_of_display_eq {t u : Target} (h : t.display = u.display) : t = u := by
  have hkind : ∀ k : TargetKind, ':' ∉ k.display.toList := by
    intro k
    cases k <;> decide
  have hchars := congrArg String.toList h
  simp only [Target.display, String.toList_append, List.append_assoc] at hchars
  obtain ⟨hkinds, hids⟩ := append_inj_of_mark (hkind t.kind) (hkind u.kind) (by simp) (by simp) hchars
  obtain ⟨kind, ⟨id⟩⟩ := t
  obtain ⟨kind', ⟨id'⟩⟩ := u
  obtain rfl : kind = kind' := TargetKind.display_inj (String.toList_inj.1 hkinds)
  obtain rfl : id = id' := String.toList_inj.1 (List.append_cancel_left hids)
  rfl

/-! ## Specifications -/

namespace Specification

/-- What a value is filed under can be taken apart: the name has no brace, and the properties are plain. -/
def PlainKey (s : Specification) : Prop := '\x7b' ∉ s.name.toList ∧ s.properties.Plain

/-- The text can be taken apart: the name and the target have no bracket, and the properties are plain. -/
def PlainText (s : Specification) : Prop :=
  '[' ∉ s.name.toList ∧ ']' ∉ s.target.id.text.toList ∧ s.properties.Plain

instance (s : Specification) : Decidable s.PlainKey :=
  inferInstanceAs (Decidable ('\x7b' ∉ s.name.toList ∧ s.properties.Plain))

instance (s : Specification) : Decidable s.PlainText :=
  inferInstanceAs (Decidable ('[' ∉ s.name.toList ∧ ']' ∉ s.target.id.text.toList ∧ s.properties.Plain))

variable {s t : Specification}

theorem resultKey_eq (s : Specification) : ResultModel.resultKey s = s.name ++ s.properties.suffix := by
  unfold ResultModel.resultKey Properties.suffix
  split
  · exact String.append_empty.symm
  · rfl

theorem eq_of_resultKey_eq (hs : s.PlainKey) (ht : t.PlainKey) (htarget : s.target = t.target)
    (h : ResultModel.resultKey s = ResultModel.resultKey t) : s = t := by
  rw [resultKey_eq, resultKey_eq] at h
  have hchars := congrArg String.toList h
  rw [String.toList_append, String.toList_append] at hchars
  obtain ⟨hname, hsuffix⟩ := append_inj_of_mark hs.1 ht.1 (Properties.head?_suffix _) (Properties.head?_suffix _)
    hchars
  have hproperties := Properties.eq_of_suffix_eq hs.2 ht.2 (String.toList_inj.1 hsuffix)
  cases s
  cases t
  simp_all [String.toList_inj]

theorem eq_of_display_eq (hs : s.PlainText) (ht : t.PlainText) (h : s.display = t.display) : s = t := by
  have hclosed : ∀ {u : Specification}, u.PlainText → ']' ∉ u.target.display.toList := by
    intro u hu
    have hkind : ']' ∉ u.target.kind.display.toList := by cases u.target.kind <;> decide
    simp [Target.display, hkind, hu.2.1]
  have hchars := congrArg String.toList h
  simp only [display, String.toList_append, List.append_assoc] at hchars
  obtain ⟨hname, hafter⟩ := append_inj_of_mark hs.1 ht.1 (by simp) (by simp) hchars
  obtain ⟨htarget, hrest⟩ := append_inj_of_mark (hclosed hs) (hclosed ht) (by simp) (by simp)
    (List.append_cancel_left hafter)
  have hproperties := Properties.eq_of_suffix_eq hs.2.2 ht.2.2
    (String.toList_inj.1 (List.append_cancel_left hrest))
  have htargets := Target.eq_of_display_eq (String.toList_inj.1 htarget)
  cases s
  cases t
  simp_all [String.toList_inj]

end Specification
end Valuation
