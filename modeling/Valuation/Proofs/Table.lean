import Mathlib.Data.List.Nodup
import Mathlib.Data.List.Sort
import Valuation.Proofs.OrderedSet
import Valuation.Table

/-!
# Tables list what they hold

The keys of a table are filed like the elements of an ordered set (`keys_insert`), so a table that is built by
filing lists its keys strictly ascending (`sorted_ofList`), and lists just what looking its keys up finds
(`mem_toList_iff`).
-/
namespace Valuation
namespace Table

variable {κ υ : Type}

/-! ## Sorted tables -/

section
variable [Ord κ]

/-- Every key is less than all that follow. -/
def Sorted (t : Table κ υ) : Prop := OrderedSet.Sorted t.keys

theorem sorted_empty : (∅ : Table κ υ).Sorted := List.Pairwise.nil

theorem Sorted.nodup_keys [Std.LawfulEqOrd κ] {t : Table κ υ} (h : t.Sorted) : t.keys.Nodup := by
  refine List.Pairwise.imp (fun {k l} hlt hkl => ?_) h
  rw [hkl, Std.compare_self] at hlt
  cases hlt

end

/-! ## Looking up -/

variable [DecidableEq κ]

theorem find_eq_some_iff {es : List (κ × υ)} (h : (es.map (·.1)).Nodup) {key : κ} {value : υ} :
    find key es = some value ↔ (key, value) ∈ es := by
  induction es with
  | nil => simp [find]
  | cons e es ih =>
    obtain ⟨k, v⟩ := e
    obtain ⟨hk, hes⟩ := List.nodup_cons.1 h
    rw [find, List.mem_cons]
    by_cases hkey : k = key
    · subst hkey
      have hnot : (k, value) ∉ es := fun hmem => hk (List.mem_map.2 ⟨_, hmem, rfl⟩)
      simp [hnot, eq_comm]
    · simp [hkey, Ne.symm hkey, ih hes]

/-- A sorted table lists just what looking its keys up finds. -/
theorem mem_toList_iff [Ord κ] [Std.LawfulEqOrd κ] {t : Table κ υ} (h : t.Sorted) {key : κ} {value : υ} :
    (key, value) ∈ t.toList ↔ t.get? key = some value :=
  (find_eq_some_iff h.nodup_keys).symm

theorem contains_iff (t : Table κ υ) (key : κ) : t.contains key = true ↔ key ∈ t.keys := by
  unfold contains get? keys
  induction t.entries with
  | nil => simp [find]
  | cons e es ih =>
    obtain ⟨k, v⟩ := e
    rw [find, List.map_cons, List.mem_cons]
    by_cases hkey : k = key
    · simp [hkey]
    · simp [hkey, Ne.symm hkey, ih]

theorem mem_of_find {es : List (κ × υ)} {key : κ} {value : υ} (h : find key es = some value) :
    (key, value) ∈ es := by
  induction es with
  | nil => cases h
  | cons e es ih =>
    obtain ⟨k, v⟩ := e
    unfold find at h
    split at h
    · next hkey =>
      cases h
      exact hkey ▸ List.mem_cons_self ..
    · exact List.mem_cons_of_mem _ (ih h)

theorem get?_foldl_erase (keys : List κ) (t : Table κ υ) (key : κ) :
    (keys.foldl erase t).get? key = if key ∈ keys then none else t.get? key := by
  induction keys generalizing t with
  | nil => rfl
  | cons k keys ih =>
    rw [List.foldl_cons, ih, get?_erase]
    by_cases hkey : key = k
    · simp [hkey]
    · simp [hkey, Ne.symm hkey]

theorem keys_erase (t : Table κ υ) (key : κ) : (t.erase key).keys = t.keys.filter (· ≠ key) := by
  rw [keys, keys, List.filter_map]
  rfl

theorem Sorted.erase [Ord κ] {t : Table κ υ} (h : t.Sorted) (key : κ) : (t.erase key).Sorted := by
  rw [Sorted, keys_erase]
  exact h.filter _

/-- Values change, each under its key. -/
theorem get?_map (f : υ → υ) (t : Table κ υ) (key : κ) :
    (Table.mk (t.entries.map fun e => (e.1, f e.2))).get? key = (t.get? key).map f := by
  unfold get?
  induction t.entries with
  | nil => rfl
  | cons e es ih =>
    rw [List.map_cons, find, find, ih]
    split <;> rfl

/-! ## Filing -/

variable [Ord κ]

theorem mem_place {key : κ} {value : υ} {es : List (κ × υ)} {e : κ × υ} (h : e ∈ place key value es) :
    e = (key, value) ∨ e ∈ es := by
  induction es with
  | nil => exact .inl (List.mem_singleton.1 h)
  | cons f es ih =>
    obtain ⟨k, v⟩ := f
    unfold place at h
    split at h
    · exact (List.mem_cons.1 h).imp_right (List.mem_cons_of_mem _)
    split at h
    · exact List.mem_cons.1 h
    · rcases List.mem_cons.1 h with rfl | h
      · exact .inr (List.mem_cons_self ..)
      · exact (ih h).imp_right (List.mem_cons_of_mem _)

theorem place_place (key : κ) (value value' : υ) (es : List (κ × υ)) :
    place key value (place key value' es) = place key value es := by
  induction es with
  | nil => simp [place]
  | cons e es ih =>
    obtain ⟨k, v⟩ := e
    by_cases hkey : k = key
    · simp [place, hkey]
    · by_cases hlt : (compare key k).isLT = true
      · simp [place, hkey, hlt]
      · simp [place, hkey, hlt, ih]

/-- What is filed last under a key is what counts. -/
theorem insert_insert (t : Table κ υ) (key : κ) (value value' : υ) :
    (t.insert key value').insert key value = t.insert key value :=
  congrArg Table.mk (place_place key value value' t.entries)

theorem keys_place (key : κ) (value : υ) (es : List (κ × υ)) :
    (place key value es).map (·.1) = OrderedSet.place key (es.map (·.1)) := by
  induction es with
  | nil => rfl
  | cons e es ih =>
    obtain ⟨k, v⟩ := e
    rw [place, List.map_cons, OrderedSet.place]
    by_cases hkey : k = key
    · simp [hkey]
    · simp only [hkey, if_false]
      split
      · rfl
      · rw [List.map_cons, ih]

/-- Keys are filed like the elements of an ordered set. -/
theorem keys_insert (t : Table κ υ) (key : κ) (value : υ) :
    (t.insert key value).keys = OrderedSet.place key t.keys :=
  keys_place key value t.entries

/-- Of several pairs with one key the last one is kept. -/
theorem get?_insertAll_eq (t : Table κ υ) (pairs : List (κ × υ)) (key : κ) :
    (t.insertAll pairs).get? key =
      (((pairs.filter fun e => e.1 = key).getLast?).map (·.2)).or (t.get? key) := by
  induction pairs generalizing t with
  | nil => rfl
  | cons e pairs ih =>
    rw [insertAll, List.foldl_cons]
    refine (ih _).trans ?_
    rw [get?_insert]
    by_cases he : e.1 = key
    · rw [if_pos he, List.filter_cons_of_pos (by simpa using he), List.getLast?_cons]
      cases (pairs.filter fun e => e.1 = key).getLast? with
      | none => rfl
      | some f => rfl
    · rw [if_neg he, List.filter_cons_of_neg (by simpa using he)]

theorem get?_insertAll_of_notMem {pairs : List (κ × υ)} {key : κ} (h : key ∉ pairs.map (·.1))
    (t : Table κ υ) : (t.insertAll pairs).get? key = t.get? key := by
  have hnone : (pairs.filter fun e => e.1 = key) = [] := by
    refine List.filter_eq_nil_iff.2 fun e he hkey => h ?_
    exact List.mem_map.2 ⟨e, he, of_decide_eq_true hkey⟩
  rw [get?_insertAll_eq, hnone]
  rfl

/-- Pairs whose keys differ are all there once they are filed. -/
theorem get?_insertAll {pairs : List (κ × υ)} (h : (pairs.map (·.1)).Nodup) {key : κ} {value : υ}
    (hmem : (key, value) ∈ pairs) (t : Table κ υ) : (t.insertAll pairs).get? key = some value := by
  induction pairs generalizing t with
  | nil => cases hmem
  | cons e pairs ih =>
    obtain ⟨he, hpairs⟩ := List.nodup_cons.1 h
    rw [insertAll, List.foldl_cons]
    rcases List.mem_cons.1 hmem with rfl | hmem
    · exact (get?_insertAll_of_notMem he _).trans (by rw [get?_insert, if_pos rfl])
    · exact ih hpairs hmem _

/-- Filing pairs gives values to their keys and takes none away. -/
@[simp] theorem contains_insertAll (t : Table κ υ) (pairs : List (κ × υ)) (key : κ) :
    (t.insertAll pairs).contains key = true ↔ t.contains key = true ∨ key ∈ pairs.map (·.1) := by
  rw [contains, get?_insertAll_eq, Option.isSome_or, Bool.or_eq_true, Option.isSome_map, List.getLast?_isSome, or_comm]
  simp [contains, List.filter_eq_nil_iff]

/-- What is found once pairs are filed under new keys that differ is what was there, and these pairs. -/
theorem get?_insertAll_new {t : Table κ υ} {pairs : List (κ × υ)} (h : (pairs.map (·.1)).Nodup)
    (hnew : ∀ key ∈ pairs.map (·.1), t.contains key = false) {key : κ} {value : υ} :
    (t.insertAll pairs).get? key = some value ↔ t.get? key = some value ∨ (key, value) ∈ pairs := by
  by_cases hkey : key ∈ pairs.map (·.1)
  · obtain ⟨⟨k, v⟩, hmem, rfl⟩ := List.mem_map.1 hkey
    have hnone : t.get? k = none := by simpa [contains] using hnew k hkey
    rw [get?_insertAll h hmem, hnone]
    constructor
    · intro hv
      exact .inr (Option.some.inj hv ▸ hmem)
    · rintro (hv | hv)
      · cases hv
      · exact (get?_insertAll h hmem t).symm.trans (get?_insertAll h hv t)
  · have hnot : (key, value) ∉ pairs := fun hmem => hkey (List.mem_map.2 ⟨_, hmem, rfl⟩)
    simp [get?_insertAll_of_notMem hkey, hnot]

/-- What is found once pairs whose keys differ are filed are these pairs. -/
theorem get?_ofList {pairs : List (κ × υ)} (h : (pairs.map (·.1)).Nodup) {key : κ} {value : υ} :
    (ofList pairs).get? key = some value ↔ (key, value) ∈ pairs :=
  (get?_insertAll_new h fun _ _ => rfl).trans (or_iff_right nofun)

/-- Filing what a sorted table lists gives what the table holds. -/
theorem get?_ofList_toList [Std.LawfulEqOrd κ] {t : Table κ υ} (h : t.Sorted) (key : κ) :
    (ofList t.toList).get? key = t.get? key :=
  Option.ext fun _ => (get?_ofList h.nodup_keys).trans (mem_toList_iff h)

theorem get?_modify (t : Table κ υ) (key k : κ) (f : υ → υ) :
    (t.modify key f).get? k = if key = k then (t.get? k).map f else t.get? k := by
  unfold modify
  by_cases hk : key = k
  · subst hk
    cases ht : t.get? key with
    | none => simp [ht]
    | some v => simp
  · cases t.get? key with
    | none => simp [hk]
    | some v => simp [hk]

variable [Std.TransOrd κ] [Std.LawfulEqOrd κ]

theorem Sorted.insert {t : Table κ υ} (h : t.Sorted) (key : κ) (value : υ) : (t.insert key value).Sorted := by
  rw [Sorted, keys_insert]
  exact OrderedSet.sorted_place key h

omit [Std.LawfulEqOrd κ] in
/-- A key that is there stays where it is. -/
theorem keys_insert_of_contains {t : Table κ υ} (h : t.Sorted) {key : κ} (hkey : t.contains key = true) (value : υ) :
    (t.insert key value).keys = t.keys := by
  rw [keys_insert]
  exact OrderedSet.place_of_mem h ((contains_iff t key).1 hkey)

theorem sorted_insertAll {t : Table κ υ} (h : t.Sorted) (pairs : List (κ × υ)) : (t.insertAll pairs).Sorted := by
  induction pairs generalizing t with
  | nil => exact h
  | cons e pairs ih => exact ih (h.insert e.1 e.2)

theorem sorted_ofList (pairs : List (κ × υ)) : (ofList pairs).Sorted :=
  sorted_insertAll sorted_empty pairs

/-- Sorted tables that hold the same under some keys list the same under these keys. -/
theorem filter_toList_congr {t t' : Table κ υ} (ht : t.Sorted) (ht' : t'.Sorted) {p : κ → Bool}
    (h : ∀ key, p key = true → t.get? key = t'.get? key) :
    (t.toList.filter fun e => p e.1) = t'.toList.filter fun e => p e.1 := by
  have hpairwise : ∀ {t : Table κ υ}, t.Sorted →
      (t.toList.filter fun e => p e.1).Pairwise fun e f => compare e.1 f.1 = .lt :=
    fun hsorted => (List.pairwise_map.1 hsorted).filter _
  have hantisymm : Std.Antisymm fun e f : κ × υ => compare e.1 f.1 = .lt :=
    ⟨fun e f hef hfe => by cases (Std.OrientedCmp.gt_of_lt hef).symm.trans hfe⟩
  have hirrefl : Std.Irrefl fun e f : κ × υ => compare e.1 f.1 = .lt :=
    ⟨fun e he => by rw [Std.compare_self] at he; cases he⟩
  refine (hpairwise ht).eq_of_mem_iff (hpairwise ht') fun ⟨key, value⟩ => ?_
  rw [List.mem_filter, List.mem_filter]
  refine and_congr_left fun hkey => ?_
  rw [mem_toList_iff ht, mem_toList_iff ht', h key hkey]

/-- Sorted tables that hold the same are the same. -/
theorem Sorted.ext {t t' : Table κ υ} (ht : t.Sorted) (ht' : t'.Sorted) (h : ∀ key, t.get? key = t'.get? key) :
    t = t' := by
  have hfilter := filter_toList_congr ht ht' (p := fun _ => true) fun key _ => h key
  rw [List.filter_true, List.filter_true] at hfilter
  exact congrArg Table.mk hfilter

/-- Pairs under new keys that differ are listed next to what was there, each once. -/
theorem toList_insertAll_perm {t : Table κ υ} (ht : t.Sorted) {pairs : List (κ × υ)} (h : (pairs.map (·.1)).Nodup)
    (hnew : ∀ key ∈ pairs.map (·.1), t.contains key = false) : (t.insertAll pairs).toList.Perm (t.toList ++ pairs) := by
  have hsorted := sorted_insertAll ht pairs
  have hall : (t.insertAll pairs).toList.Nodup := List.Nodup.of_map _ hsorted.nodup_keys
  have hold : t.toList.Nodup := List.Nodup.of_map _ ht.nodup_keys
  have hdisjoint : ∀ e ∈ t.toList, ∀ f ∈ pairs, e ≠ f := by
    rintro ⟨key, value⟩ he _ hf rfl
    have hnone := hnew key (List.mem_map.2 ⟨_, hf, rfl⟩)
    rw [contains, (mem_toList_iff ht).1 he] at hnone
    cases hnone
  refine (List.perm_ext_iff_of_nodup hall ?_).2 fun ⟨key, value⟩ => ?_
  · exact List.nodup_append.2 ⟨hold, List.Nodup.of_map _ h, hdisjoint⟩
  · rw [List.mem_append, mem_toList_iff hsorted, mem_toList_iff ht, get?_insertAll_new h hnew]

/-- Pairs whose keys differ are listed each once. -/
theorem toList_ofList_perm {pairs : List (κ × υ)} (h : (pairs.map (·.1)).Nodup) :
    (ofList pairs).toList.Perm pairs :=
  toList_insertAll_perm sorted_empty h fun _ _ => rfl

end Table
end Valuation
