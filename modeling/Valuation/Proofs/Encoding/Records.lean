import Valuation.Document.Fields
import Valuation.Proofs.Json.Reading

/-!
# Records with fields left out

A record that is encoded has its fields in a fixed order, each once. Whatever is left out of it, a reader that knows
the names finds the fields that are left (`fields?_without`), and takes the default for a field that is left out
(`withDefault_without`).
-/
namespace Valuation

namespace Json

/-! ## Leaving fields out -/

/-- A record without some of its fields. -/
def without (names : List String) : Json → Json
  | .record fields => .record (fields.filter fun f => f.1 ∉ names)
  | j => j

/-- A record in which a field is changed. -/
def inField (name : String) (f : Json → Json) : Json → Json
  | .record fields => .record (fields.map fun e => (e.1, if e.1 = name then f e.2 else e.2))
  | j => j

/-- A list in which every item is changed, in a way that depends on its place. -/
def eachItem (f : Nat → Json → Json) : Json → Json
  | .list items => .list (items.mapIdx f)
  | j => j

theorem without_nil (j : Json) : j.without [] = j := by
  cases j with
  | record fields => simp [without]
  | _ => rfl

theorem mapIdx_eq_self {α : Type} {f : Nat → α → α} (h : ∀ i x, f i x = x) (xs : List α) : xs.mapIdx f = xs := by
  refine List.ext_getElem? fun i => ?_
  rw [List.getElem?_mapIdx]
  cases xs[i]? with
  | none => rfl
  | some x => exact congrArg some (h i x)

theorem inField_eq_self {f : Json → Json} (h : ∀ j, f j = j) (name : String) (j : Json) : j.inField name f = j := by
  cases j with
  | record fields => simp [inField, h]
  | _ => rfl

theorem eachItem_eq_self {f : Nat → Json → Json} (h : ∀ i j, f i j = j) (j : Json) : j.eachItem f = j := by
  cases j with
  | list items => rw [eachItem, mapIdx_eq_self h]
  | _ => rfl

/-! ## Readable records -/

section
variable {depth : Nat}

theorem Readable.noFields (room : depth < Reader.maxDepth) : Readable depth (.record []) :=
  .record room (List.forall_mem_nil _)

theorem Readable.field {name : String} {j : Json} {fields : List (String × Json)} (h : Readable (depth + 1) j)
    (hfields : Readable depth (.record fields)) : Readable depth (.record ((name, j) :: fields)) := by
  cases hfields with
  | record room readable => exact .record room (List.forall_mem_cons.2 ⟨h, readable⟩)

theorem Readable.each {α : Type} {encode : α → Json} {xs : List α} (room : depth < Reader.maxDepth)
    (h : ∀ x, Readable (depth + 1) (encode x)) : Readable depth (.list (xs.map encode)) :=
  .list room (List.forall_mem_map.2 fun x _ => h x)

end

/-- A change after which a value can still be read back. -/
def KeepsReadable (f : Json → Json) : Prop := ∀ depth j, Readable depth j → Readable depth (f j)

theorem keepsReadable_without (names : List String) : KeepsReadable (without names) := by
  intro depth j h
  cases h with
  | record room readable => exact .record room fun f hf => readable f (List.mem_filter.1 hf).1
  | null => exact .null
  | bool b => exact .bool b
  | int fits => exact .int fits
  | text s => exact .text s
  | list room readable => exact .list room readable

theorem KeepsReadable.inField {f : Json → Json} (hf : KeepsReadable f) (name : String) :
    KeepsReadable (inField name f) := by
  intro depth j h
  cases h with
  | record room readable =>
    refine .record room fun changed hchanged => ?_
    obtain ⟨e, he, rfl⟩ := List.mem_map.1 hchanged
    dsimp only
    split
    · exact hf _ _ (readable e he)
    · exact readable e he
  | null => exact .null
  | bool b => exact .bool b
  | int fits => exact .int fits
  | text s => exact .text s
  | list room readable => exact .list room readable

theorem keepsReadable_eachItem {f : Nat → Json → Json} (hf : ∀ i, KeepsReadable (f i)) :
    KeepsReadable (eachItem f) := by
  intro depth j h
  cases h with
  | list room readable =>
    refine .list room fun e he => ?_
    obtain ⟨i, hi, rfl⟩ := List.mem_mapIdx.1 he
    exact hf i _ _ (readable _ (List.getElem_mem hi))
  | null => exact .null
  | bool b => exact .bool b
  | int fits => exact .int fits
  | text s => exact .text s
  | record room readable => exact .record room readable

/-! ## Documents of values are valid -/

mutual

theorem isSome_toJson? : (j : Json) → j.toDocument.toJson?.isSome = true
  | .null => rfl
  | .bool _ => rfl
  | .int _ => rfl
  | .float _ => rfl
  | .text _ => rfl
  | .list items => by
    rw [toDocument, Document.toJson?, Option.isSome_map]
    exact isSome_itemsToJson? items
  | .record fields => by
    rw [toDocument, Document.toJson?, Option.isSome_map]
    exact isSome_fieldsToJson? fields

theorem isSome_itemsToJson? : (items : List Json) → (Document.itemsToJson? (itemsToDocuments items)).isSome = true
  | [] => rfl
  | j :: js => by
    obtain ⟨_, hj⟩ := Option.isSome_iff_exists.1 (isSome_toJson? j)
    obtain ⟨_, hjs⟩ := Option.isSome_iff_exists.1 (isSome_itemsToJson? js)
    rw [itemsToDocuments, Document.itemsToJson?, hj, hjs]
    rfl

theorem isSome_fieldsToJson? :
    (fields : List (String × Json)) → (Document.fieldsToJson? (fieldsToDocuments fields)).isSome = true
  | [] => rfl
  | (_, j) :: fs => by
    obtain ⟨_, hj⟩ := Option.isSome_iff_exists.1 (isSome_toJson? j)
    obtain ⟨_, hfs⟩ := Option.isSome_iff_exists.1 (isSome_fieldsToJson? fs)
    rw [fieldsToDocuments, Document.fieldsToJson?, hj, hfs]
    rfl

end

end Json

namespace Document

/-! ## Fields -/

section
variable {α : Type} {name : String} {leftOut : List String} {decode : Document → Option α}

theorem Fields.find?_cons (k : String) (d : Document) (fs : Fields) (name : String) :
    Fields.find? ((k, d) :: fs) name = if k = name then some d else fs.find? name := by
  rw [find?, List.lookup_cons]
  by_cases h : k = name
  · simp [h]
  · simp [h, beq_eq_false_iff_ne.2 (Ne.symm h), find?]

/-- Fields without some of them. -/
def Fields.without (fs : Fields) (leftOut : List String) : Fields := fs.filter fun f => f.1 ∉ leftOut

theorem Fields.find?_without (fs : Fields) (leftOut : List String) (name : String) :
    (fs.without leftOut).find? name = if name ∈ leftOut then none else fs.find? name := by
  unfold without
  induction fs with
  | nil => simp [find?]
  | cons f fs ih =>
    obtain ⟨k, d⟩ := f
    rw [find?_cons]
    by_cases hk : k ∈ leftOut
    · rw [List.filter_cons_of_neg (by simpa using hk), ih]
      by_cases hname : k = name
      · simp [← hname, hk]
      · simp [hname]
    · rw [List.filter_cons_of_pos (by simpa using hk), find?_cons, ih]
      by_cases hname : k = name
      · simp [← hname, hk]
      · simp [hname]

/-- The fields of an encoded record are found by their names. -/
theorem Fields.find?_toDocuments (fields : List (String × Json)) (name : String) :
    Fields.find? (Json.fieldsToDocuments fields) name = (fields.lookup name).map Json.toDocument := by
  induction fields with
  | nil => rfl
  | cons f fields ih =>
    obtain ⟨k, j⟩ := f
    rw [Json.fieldsToDocuments, find?_cons, ih, List.lookup_cons]
    by_cases h : k = name
    · simp [h]
    · simp [h, beq_eq_false_iff_ne.2 (Ne.symm h)]

variable {fields : List (String × Json)} {j : Json} {x : α}

/-- A field that must be there is decoded, when it is not left out. -/
theorem Fields.required_without (h : name ∉ leftOut) (hfield : fields.lookup name = some j)
    (hdecode : decode j.toDocument = some x) :
    (Fields.without (Json.fieldsToDocuments fields) leftOut).required name decode = some x := by
  rw [required, find?_without, if_neg h, find?_toDocuments, hfield]
  exact hdecode

/-- A field that has a default is decoded, or gets the default when it is left out. -/
theorem Fields.withDefault_without (default : α) (hfield : fields.lookup name = some j)
    (hdecode : decode j.toDocument = some x) :
    (Fields.without (Json.fieldsToDocuments fields) leftOut).withDefault name default decode =
      some (if name ∈ leftOut then default else x) := by
  rw [withDefault, find?_without, find?_toDocuments, hfield]
  by_cases h : name ∈ leftOut
  · rw [if_pos h, if_pos h]
  · rw [if_neg h, if_neg h]
    exact hdecode

/-- A reader that knows the names finds the fields that are not left out. -/
theorem fields?_of_names {names : List String} {fs : Fields} (hnames : fs.map (·.1) = names) (hnodup : names.Nodup)
    (leftOut : List String) : fields? names (.record (fs.without leftOut)) = some (fs.without leftOut) := by
  unfold Fields.without
  have hknown : (fs.filter fun f => f.1 ∉ leftOut).filter (fun f => f.1 ∈ names) =
      fs.filter fun f => f.1 ∉ leftOut := by
    refine List.filter_eq_self.2 fun f hf => decide_eq_true ?_
    exact hnames ▸ List.mem_map_of_mem (List.mem_filter.1 hf).1
  have honce : ∀ n ∈ names, (fs.filter fun f => f.1 ∉ leftOut).countP (fun f => f.1 = n) ≤ 1 := by
    intro n _
    have hcount : fs.countP (fun f => f.1 = n) = (fs.map (·.1)).count n := by
      rw [List.count, List.countP_map]
      exact List.countP_congr fun f _ => by simp
    have hle := (List.filter_sublist (p := fun f => f.1 ∉ leftOut) (l := fs)).countP_le (p := fun f => f.1 = n)
    have hone := List.nodup_iff_count.1 hnodup n
    rw [hcount, hnames] at hle
    exact Nat.le_trans hle hone
  simp only [fields?, hknown]
  rw [if_pos (List.all_eq_true.2 fun n hn => decide_eq_true (honce n hn))]

end

theorem toDocument_without (fields : List (String × Json)) (leftOut : List String) :
    ((Json.record fields).without leftOut).toDocument =
      .record (Fields.without (Json.fieldsToDocuments fields) leftOut) := by
  rw [Json.without, Json.toDocument, Json.fieldsToDocuments_eq, Json.fieldsToDocuments_eq, Fields.without,
    List.filter_map]
  rfl

/-- A record of known fields is read whatever is left out of it. -/
theorem fields?_without (names : List String) (j : Json) (leftOut : List String) {fields : List (String × Json)}
    (hj : j = .record fields) (hnames : fields.map (·.1) = names) (hnodup : names.Nodup) :
    (j.without leftOut).toDocument.fields? names =
      some (Fields.without (Json.fieldsToDocuments fields) leftOut) := by
  rw [hj, toDocument_without]
  refine fields?_of_names ?_ hnodup leftOut
  rw [Json.fieldsToDocuments_eq, List.map_map]
  exact hnames

/-! ## Lists -/

/-- Items that decode one by one decode together. -/
theorem mapM_mapIdx {α β γ : Type} {encode : Nat → α → β} {decode : β → Option γ} {result : Nat → α → γ}
    {xs : List α} (h : ∀ i, ∀ x ∈ xs, decode (encode i x) = some (result i x)) :
    (xs.mapIdx encode).mapM decode = some (xs.mapIdx result) := by
  induction xs generalizing encode result with
  | nil => rfl
  | cons x xs ih =>
    obtain ⟨hx, hxs⟩ := forall_and.1 fun i => List.forall_mem_cons.1 (h i)
    rw [List.mapIdx_cons, List.mapIdx_cons, List.mapM_cons, hx 0, ih fun i => hxs (i + 1)]
    rfl

theorem mapM_map {α β : Type} {encode : α → β} {decode : β → Option α} {xs : List α}
    (h : ∀ x ∈ xs, decode (encode x) = some x) : (xs.map encode).mapM decode = some xs := by
  induction xs with
  | nil => rfl
  | cons x xs ih =>
    obtain ⟨hx, hxs⟩ := List.forall_mem_cons.1 h
    rw [List.map_cons, List.mapM_cons, hx, ih hxs]
    rfl

section
variable {α : Type} {encode : α → Json} {decode : Document → Option α} {xs : List α}

/-- A list is decoded, if its items are. -/
theorem items?_toDocument (h : ∀ x ∈ xs, decode (encode x).toDocument = some x) :
    items? decode (Json.toDocument (.list (xs.map encode))) = some xs := by
  rw [Json.toDocument, Json.itemsToDocuments_eq, List.map_map, items?]
  exact mapM_map h

/-- A list is decoded after a change of its items, if what the items are changed to is decoded. -/
theorem items?_eachItem {change : Nat → Json → Json} {result : Nat → α → α}
    (h : ∀ i, ∀ x ∈ xs, decode (change i (encode x)).toDocument = some (result i x)) :
    items? decode ((Json.list (xs.map encode)).eachItem change).toDocument = some (xs.mapIdx result) := by
  have hitems : ((xs.map encode).mapIdx change).map Json.toDocument =
      xs.mapIdx fun i x => (change i (encode x)).toDocument := by
    refine List.ext_getElem? fun i => ?_
    simp [Function.comp_def]
  rw [Json.eachItem, Json.toDocument, Json.itemsToDocuments_eq, hitems]
  exact mapM_mapIdx h

end

end Document
end Valuation
