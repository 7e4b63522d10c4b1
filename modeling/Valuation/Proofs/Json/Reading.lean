import Valuation.Json.Reader
import Valuation.Proofs.Identifier

/-!
# Reading what has been rendered

The text of a value reads back as the document of the value (`ofJsonText?_render`), if its numbers are whole, have no
sign and fit 64 bits, and if it is nested no deeper than a reader goes (`Json.Readable`). Strings may hold any
characters: each is read back from its escape (`stringBody_escape`).
-/
namespace Valuation

namespace Json

/-! ## Documents of values -/

mutual

/-- The document of a value: the same, part for part. -/
def toDocument : Json → Document
  | .null => .null
  | .bool b => .bool b
  | .int n => .int n
  | .float x => .float x
  | .text s => .text s
  | .list items => .list (itemsToDocuments items)
  | .record fields => .record (fieldsToDocuments fields)

def itemsToDocuments : List Json → List Document
  | [] => []
  | j :: js => j.toDocument :: itemsToDocuments js

def fieldsToDocuments : List (String × Json) → List (String × Document)
  | [] => []
  | (k, j) :: fs => (k, j.toDocument) :: fieldsToDocuments fs

end

theorem itemsToDocuments_eq (items : List Json) : itemsToDocuments items = items.map toDocument := by
  induction items with
  | nil => rfl
  | cons j js ih => rw [itemsToDocuments, ih, List.map_cons]

theorem fieldsToDocuments_eq (fields : List (String × Json)) :
    fieldsToDocuments fields = fields.map fun f => (f.1, f.2.toDocument) := by
  induction fields with
  | nil => rfl
  | cons f fs ih => rw [fieldsToDocuments, ih, List.map_cons]

/-- A value that can be read back inside so many lists and records. -/
inductive Readable : (depth : Nat) → Json → Prop
  | null {depth : Nat} : Readable depth .null
  | bool {depth : Nat} (b : Bool) : Readable depth (.bool b)
  | int {depth n : Nat} (fits : n < 2 ^ 64) : Readable depth (.int n)
  | text {depth : Nat} (s : String) : Readable depth (.text s)
  | list {depth : Nat} {items : List Json} (room : depth < Reader.maxDepth)
      (readable : ∀ j ∈ items, Readable (depth + 1) j) : Readable depth (.list items)
  | record {depth : Nat} {fields : List (String × Json)} (room : depth < Reader.maxDepth)
      (readable : ∀ f ∈ fields, Readable (depth + 1) f.2) : Readable depth (.record fields)

namespace Reader

/-! ## Strings -/

section
variable {fuel : Nat} {done rest : List Char}

theorem stringBody_plain {c : Char} (hquote : c ≠ '"') (hslash : c ≠ '\\') (hprints : ¬c.toNat < 0x20) :
    stringBody (fuel + 1) true done (c :: rest) = stringBody fuel true (c :: done) rest := by
  rw [stringBody.eq_def]
  dsimp only
  split
  · next heq => cases heq
  · next heq => exact absurd (List.cons.inj heq).1 hquote
  · next heq => exact absurd (List.cons.inj heq).1 hslash
  · next heq => exact absurd (List.cons.inj heq).1 hslash
  · next heq =>
    obtain ⟨rfl, rfl⟩ := List.cons.inj heq
    exact if_neg hprints

/-- A control character stands as four digits. -/
theorem stringBody_control {c : Char} (hcontrol : c.toNat < 0x20) :
    stringBody (fuel + 1) true done ('\\' :: 'u' :: (hexDigits 4 c.toNat).toList ++ rest) =
      stringBody fuel true (c :: done) rest := by
  have hlength : (hexDigits 4 c.toNat).toList.length = 4 := length_hexDigits (by decide) c.toNat
  have hnumber := hexNumber?_hexDigits 4 c.toNat
  rw [Nat.mod_eq_of_lt (by omega)] at hnumber
  generalize (hexDigits 4 c.toNat).toList = digits at hlength hnumber
  match digits, hlength with
  | [w, x, y, z], _ =>
    have hlow : ¬(0xD800 ≤ c.toNat ∧ c.toNat < 0xDC00) := by omega
    have hhigh : ¬(0xDC00 ≤ c.toNat ∧ c.toNat < 0xE000) := by omega
    simp only [List.cons_append, List.nil_append, stringBody, hnumber, if_neg hlow, if_neg hhigh, Char.ofNat_toNat]

/-- Every character is read back from its escape. -/
theorem stringBody_escape (c : Char) :
    stringBody (fuel + 1) true done (escape c ++ rest) = stringBody fuel true (c :: done) rest := by
  unfold escape
  split
  · next h => subst h; rfl
  split
  · next h => subst h; rfl
  split
  · next h => subst h; rfl
  split
  · next h => subst h; rfl
  split
  · next h => subst h; rfl
  split
  · next h => subst h; rfl
  split
  · next h => subst h; rfl
  split
  · next hcontrol => exact stringBody_control hcontrol
  · next hquote hslash _ _ _ _ _ hprints => exact stringBody_plain hquote hslash hprints

theorem stringBody_escapes (cs : List Char) (hfuel : cs.length < fuel) :
    stringBody fuel true done (cs.flatMap escape ++ '"' :: rest) =
      some (some (String.ofList (done.reverse ++ cs)), rest) := by
  induction cs generalizing fuel done with
  | nil =>
    obtain ⟨fuel, rfl⟩ : ∃ k, fuel = k + 1 := ⟨fuel - 1, by simp at hfuel; omega⟩
    simp [stringBody]
  | cons c cs ih =>
    rw [List.length_cons] at hfuel
    obtain ⟨fuel, rfl⟩ : ∃ k, fuel = k + 1 := ⟨fuel - 1, by omega⟩
    rw [List.flatMap_cons, List.append_assoc, stringBody_escape, ih (by omega), List.reverse_cons,
      List.append_assoc, List.singleton_append]

theorem length_le_escapes (cs : List Char) : cs.length ≤ (cs.flatMap escape).length := by
  induction cs with
  | nil => exact Nat.le_refl _
  | cons c cs ih =>
    have hone : 1 ≤ (escape c).length := by
      unfold escape
      repeat' split
      all_goals simp
    rw [List.flatMap_cons, List.length_append, List.length_cons]
    omega

theorem toList_quote (s : String) : (quote s).toList = '"' :: (s.toList.flatMap escape ++ ['"']) := by
  simp [quote]

/-- A string is read back from its quoted text. -/
theorem string?_quote (s : String) (rest : List Char) :
    ∃ cs, (quote s).toList ++ rest = '"' :: cs ∧ string? cs = some (some s, rest) := by
  refine ⟨s.toList.flatMap escape ++ '"' :: rest, by simp [toList_quote], ?_⟩
  have hlength := length_le_escapes s.toList
  rw [string?, stringBody_escapes _ (by rw [List.length_append, List.length_cons]; omega)]
  simp

end

/-! ## Numbers -/

/-- What comes after a value: a comma, the end of a list or record, or nothing. -/
def Follows (rest : List Char) : Prop := rest = [] ∨ ∃ c cs, rest = c :: cs ∧ (c = ',' ∨ c = ']' ∨ c = '\x7d')

theorem le_ofDigitChars (cs : List Char) (n : Nat) : n ≤ Nat.ofDigitChars 10 cs n := by
  rw [Nat.ofDigitChars_eq_ofDigitChars_zero]
  exact Nat.le_trans (Nat.le_mul_of_pos_left n (Nat.pow_pos (by decide))) (Nat.le_add_right ..)

/-- All digits of a number that fits are taken in. -/
theorem appendDigits_eq {cs : List Char} {n : Nat} (h : Nat.ofDigitChars 10 cs n < 2 ^ 64) :
    appendDigits n cs = (Nat.ofDigitChars 10 cs n, 0) := by
  induction cs generalizing n with
  | nil => simp [appendDigits]
  | cons c cs ih =>
    rw [Nat.ofDigitChars_cons] at h ⊢
    have hnext : 10 * n + (c.toNat - '0'.toNat) < Nat.pow 2 64 := Nat.lt_of_le_of_lt (le_ofDigitChars cs _) h
    rw [appendDigits]
    exact (if_pos hnext).trans (ih h)

/-- No number but zero begins with a zero. -/
theorem head?_toDigits {n : Nat} (h : 0 < n) : (Nat.toDigits 10 n).head? ≠ some '0' := by
  induction n using Nat.strongRecOn with
  | ind n ih =>
    rw [Nat.toDigits_eq_if (by decide)]
    split
    · simp [Nat.ne_of_gt h]
    · next hlt =>
      have hrest := ih (n / 10) (by omega) (by omega)
      obtain ⟨d, ds, hds⟩ := List.exists_cons_of_ne_nil (Nat.toDigits_ne_nil (n := n / 10) (b := 10))
      rw [hds] at hrest ⊢
      exact hrest

theorem toDigits_leading {n : Nat} :
    ¬((Nat.toDigits 10 n).isEmpty ∨ 1 < (Nat.toDigits 10 n).length ∧ (Nat.toDigits 10 n).head? = some '0') := by
  rintro (hempty | ⟨hlong, hzero⟩)
  · exact Nat.toDigits_ne_nil (List.isEmpty_iff.1 hempty)
  · rcases Nat.eq_zero_or_pos n with rfl | hpos
    · simp at hlong
    · exact head?_toDigits hpos hzero

/-- The digits of a number are all that is taken from the front of a text. -/
theorem takeWhile_toDigits {n : Nat} {rest : List Char} (hrest : Follows rest) :
    (Nat.toDigits 10 n ++ rest).takeWhile Char.isDigit = Nat.toDigits 10 n ∧
      (Nat.toDigits 10 n ++ rest).dropWhile Char.isDigit = rest := by
  have hdigits : ∀ c ∈ Nat.toDigits 10 n, c.isDigit = true := fun c hc =>
    Nat.isDigit_of_mem_toDigits (by decide) (by decide) hc
  have hstop : rest.takeWhile Char.isDigit = [] ∧ rest.dropWhile Char.isDigit = rest := by
    rcases hrest with rfl | ⟨c, cs, rfl, rfl | rfl | rfl⟩
    · exact ⟨rfl, rfl⟩
    · exact ⟨rfl, rfl⟩
    · exact ⟨rfl, rfl⟩
    · exact ⟨rfl, rfl⟩
  rw [List.takeWhile_append_of_pos hdigits, List.dropWhile_append_of_pos hdigits, hstop.1, hstop.2,
    List.append_nil]
  exact ⟨rfl, rfl⟩

theorem number?_toDigits {n : Nat} (h : n < 2 ^ 64) {rest : List Char} (hrest : Follows rest) :
    number? false (Nat.toDigits 10 n ++ rest) = some (.int n, rest) := by
  obtain ⟨htake, hdrop⟩ := takeWhile_toDigits (n := n) hrest
  have hall : appendDigits 0 (Nat.toDigits 10 n) = (n, 0) := by
    have hvalue : Nat.ofDigitChars 10 (Nat.toDigits 10 n) 0 = n := Nat.ofDigitChars_ten_toDigits
    rw [appendDigits_eq (hvalue.symm ▸ h), hvalue]
  simp only [number?, htake, hdrop, if_neg toDigits_leading, hall]
  rcases hrest with rfl | ⟨c, cs, rfl, rfl | rfl | rfl⟩
  · rfl
  · rfl
  · rfl
  · rfl

/-! ## Values -/

/-- A text that begins with neither a blank nor a closing bracket or brace. -/
def Opens (cs : List Char) : Prop :=
  ∃ c r, cs = c :: r ∧ c ≠ ' ' ∧ c ≠ '\n' ∧ c ≠ '\t' ∧ c ≠ '\r' ∧ c ≠ ']' ∧ c ≠ '\x7d'

theorem Opens.append {cs : List Char} (h : Opens cs) (rest : List Char) : Opens (cs ++ rest) := by
  obtain ⟨c, r, rfl, hc⟩ := h
  exact ⟨c, r ++ rest, rfl, hc⟩

theorem Opens.skipSpace_eq {cs : List Char} (h : Opens cs) : skipSpace cs = cs := by
  obtain ⟨c, r, rfl, hspace, hnewline, htab, hreturn, -⟩ := h
  simp [skipSpace, hspace, hnewline, htab, hreturn]

theorem isDigit_of_toDigits {n : Nat} {d : Char} {ds : List Char} (h : Nat.toDigits 10 n = d :: ds) :
    d.isDigit = true :=
  Nat.isDigit_of_mem_toDigits (by decide) (by decide) (h ▸ List.mem_cons_self ..)

theorem toList_render_int (n : Nat) : (render (.int n)).toList = Nat.toDigits 10 n := by
  rw [render, Int.toString_eq_repr, Int.repr_eq_if, if_pos (Int.natCast_nonneg n), Int.toNat_natCast,
    Nat.toList_repr]

theorem opens_quote (s : String) : Opens (quote s).toList :=
  ⟨'"', _, toList_quote s, by decide⟩

theorem opens_render {depth : Nat} {j : Json} (h : Readable depth j) : Opens (render j).toList := by
  cases h with
  | null => exact ⟨'n', _, rfl, by decide⟩
  | bool b =>
    cases b with
    | false => exact ⟨'f', _, rfl, by decide⟩
    | true => exact ⟨'t', _, rfl, by decide⟩
  | @int _ n _ =>
    rw [toList_render_int]
    obtain ⟨d, ds, hds⟩ := List.exists_cons_of_ne_nil (Nat.toDigits_ne_nil (n := n) (b := 10))
    have hdigit := isDigit_of_toDigits hds
    refine ⟨d, ds, hds, ?_, ?_, ?_, ?_, ?_, ?_⟩ <;> (rintro rfl; cases hdigit)
  | text s =>
    rw [render]
    exact opens_quote s
  | list => exact ⟨'[', _, by simp [render]; rfl, by decide⟩
  | record => exact ⟨'\x7b', _, by simp [render]; rfl, by decide⟩

section
variable {depth : Nat}

/-- The text of a value reads back, whatever follows it. -/
def ReadsBack (depth : Nat) (j : Json) : Prop :=
  ∀ fuel rest, 2 * (render j).toList.length ≤ fuel → Follows rest →
    value? fuel depth ((render j).toList ++ rest) = some (j.toDocument, rest)

theorem readsBack_int {n : Nat} (h : n < 2 ^ 64) : ReadsBack depth (.int n) := by
  intro fuel rest hfuel hrest
  have hnumber := number?_toDigits h hrest
  rw [toList_render_int] at hfuel ⊢
  obtain ⟨d, ds, hds⟩ := List.exists_cons_of_ne_nil (Nat.toDigits_ne_nil (n := n) (b := 10))
  have hdigit := isDigit_of_toDigits hds
  rw [hds] at hfuel hnumber ⊢
  rw [List.length_cons] at hfuel
  obtain ⟨fuel, rfl⟩ : ∃ k, fuel = k + 1 := ⟨fuel - 1, by omega⟩
  -- A digit begins none of the other kinds of values.
  rw [value?.eq_def]
  dsimp only [List.cons_append] at hnumber ⊢
  split
  iterate 7
    next heq =>
      obtain ⟨rfl, -⟩ := List.cons.inj heq
      cases hdigit
  exact hnumber

theorem readsBack_text (s : String) : ReadsBack depth (.text s) := by
  intro fuel rest hfuel _
  obtain ⟨cs, hquote, hstring⟩ := string?_quote s rest
  rw [render] at hfuel ⊢
  rw [toList_quote, List.length_cons] at hfuel
  obtain ⟨fuel, rfl⟩ : ∃ k, fuel = k + 1 := ⟨fuel - 1, by omega⟩
  rw [hquote]
  simp only [value?, hstring, toDocument]

theorem toList_renderItems (j w : Json) (js : List Json) :
    (renderItems (j :: w :: js)).toList = (render j).toList ++ ',' :: (renderItems (w :: js)).toList := by
  simp [renderItems]

theorem toList_renderField (k : String) (j : Json) :
    (renderFields [(k, j)]).toList = (quote k).toList ++ ':' :: (render j).toList := by
  simp [renderFields]

theorem toList_renderFields (k : String) (j : Json) (f : String × Json) (fs : List (String × Json)) :
    (renderFields ((k, j) :: f :: fs)).toList =
      (quote k).toList ++ ':' :: ((render j).toList ++ ',' :: (renderFields (f :: fs)).toList) := by
  simp [renderFields]

/-- The items of a list read back up to its bracket. -/
theorem items?_render {items : List Json} (hne : items ≠ []) (hopens : ∀ j ∈ items, Opens (render j).toList)
    (hreads : ∀ j ∈ items, ReadsBack depth j) {fuel : Nat} {rest : List Char}
    (hfuel : 2 * (renderItems items).toList.length < fuel) :
    items? fuel depth ((renderItems items).toList ++ ']' :: rest) = some (itemsToDocuments items, rest) := by
  obtain ⟨fuel, rfl⟩ : ∃ k, fuel = k + 1 := ⟨fuel - 1, by omega⟩
  induction items generalizing fuel with
  | nil => exact absurd rfl hne
  | cons j js ih =>
    obtain ⟨hopen, hopens⟩ := List.forall_mem_cons.1 hopens
    obtain ⟨hread, hreads⟩ := List.forall_mem_cons.1 hreads
    cases js with
    | nil =>
      rw [renderItems] at hfuel ⊢
      have hvalue := hread fuel (']' :: rest) (by omega) (.inr ⟨']', rest, rfl, by simp⟩)
      simp only [items?, (hopen.append _).skipSpace_eq, hvalue]
      rfl
    | cons w js =>
      rw [toList_renderItems, List.length_append, List.length_cons] at hfuel
      rw [toList_renderItems, List.append_assoc, List.cons_append]
      have hvalue := hread fuel (',' :: ((renderItems (w :: js)).toList ++ ']' :: rest)) (by omega)
        (.inr ⟨',', _, rfl, by simp⟩)
      obtain ⟨fuel, rfl⟩ : ∃ k, fuel = k + 1 := ⟨fuel - 1, by omega⟩
      have hitems := ih (by simp) hopens hreads fuel (by omega)
      have hcomma : ∀ cs, skipSpace (',' :: cs) = ',' :: cs := fun _ => rfl
      rw [items?, (hopen.append _).skipSpace_eq, hvalue]
      simp only [hcomma, hitems]
      rfl

/-- A field reads back up to the comma or the brace after it. -/
theorem fields?_field {j : Json} (hopen : Opens (render j).toList) (hread : ReadsBack depth j) {fuel : Nat}
    (hfuel : 2 * (render j).toList.length ≤ fuel) (k : String) {c : Char} (hc : c = ',' ∨ c = '\x7d')
    (rest : List Char) :
    fields? (fuel + 1) depth ((quote k).toList ++ ':' :: ((render j).toList ++ c :: rest)) =
      if c = ',' then (fields? fuel depth rest).map fun (fs, r) => (fs.bind fun fs => some ((k, j.toDocument) :: fs), r)
      else some (some [(k, j.toDocument)], rest) := by
  have hfollows : c = ',' ∨ c = ']' ∨ c = '\x7d' := hc.imp_right .inr
  have hvalue := hread fuel (c :: rest) hfuel (.inr ⟨c, rest, rfl, hfollows⟩)
  obtain ⟨cs, hquote, hstring⟩ := string?_quote k (':' :: ((render j).toList ++ c :: rest))
  have hskip : skipSpace ('"' :: cs) = '"' :: cs := rfl
  have hcolon : ∀ cs, skipSpace (':' :: cs) = ':' :: cs := fun _ => rfl
  rw [hquote, fields?, hskip]
  simp only [hstring, hcolon, (hopen.append _).skipSpace_eq, hvalue]
  obtain rfl | rfl := hc
  · rfl
  · rfl

/-- The fields of a record read back up to its brace. -/
theorem fields?_render {fields : List (String × Json)} (hne : fields ≠ [])
    (hopens : ∀ f ∈ fields, Opens (render f.2).toList) (hreads : ∀ f ∈ fields, ReadsBack depth f.2) {fuel : Nat}
    {rest : List Char} (hfuel : 2 * (renderFields fields).toList.length < fuel) :
    fields? fuel depth ((renderFields fields).toList ++ '\x7d' :: rest) =
      some (some (fieldsToDocuments fields), rest) := by
  obtain ⟨fuel, rfl⟩ : ∃ k, fuel = k + 1 := ⟨fuel - 1, by omega⟩
  induction fields generalizing fuel with
  | nil => exact absurd rfl hne
  | cons f fs ih =>
    obtain ⟨k, j⟩ := f
    obtain ⟨hopen, hopens⟩ := List.forall_mem_cons.1 hopens
    obtain ⟨hread, hreads⟩ := List.forall_mem_cons.1 hreads
    cases fs with
    | nil =>
      rw [toList_renderField, List.length_append, List.length_cons] at hfuel
      rw [toList_renderField, List.append_assoc, List.cons_append,
        fields?_field hopen hread (by dsimp only; omega) k (.inr rfl)]
      rfl
    | cons g fs =>
      rw [toList_renderFields, List.length_append, List.length_cons, List.length_append, List.length_cons] at hfuel
      rw [toList_renderFields, List.append_assoc, List.cons_append, List.append_assoc, List.cons_append,
        fields?_field hopen hread (by dsimp only; omega) k (.inl rfl)]
      obtain ⟨fuel, rfl⟩ : ∃ k, fuel = k + 1 := ⟨fuel - 1, by omega⟩
      rw [ih (by simp) hopens hreads fuel (by omega)]
      rfl

theorem opens_renderItems {j : Json} {js : List Json} (h : Opens (render j).toList) :
    Opens (renderItems (j :: js)).toList := by
  cases js with
  | nil => rwa [renderItems]
  | cons w js =>
    rw [toList_renderItems]
    exact h.append _

theorem opens_renderFields (f : String × Json) (fs : List (String × Json)) : Opens (renderFields (f :: fs)).toList := by
  obtain ⟨k, j⟩ := f
  cases fs with
  | nil =>
    rw [toList_renderField]
    exact (opens_quote k).append _
  | cons g fs =>
    rw [toList_renderFields]
    exact (opens_quote k).append _

theorem readsBack_list {items : List Json} (room : depth < maxDepth) (readable : ∀ j ∈ items, Readable (depth + 1) j)
    (hreads : ∀ j ∈ items, ReadsBack (depth + 1) j) : ReadsBack depth (.list items) := by
  intro fuel rest hfuel _
  have htext : (render (.list items)).toList ++ rest = '[' :: ((renderItems items).toList ++ ']' :: rest) := by
    simp [render]
  have hlength : (render (.list items)).toList.length = (renderItems items).toList.length + 2 := by
    simp [render]
  obtain ⟨fuel, rfl⟩ : ∃ k, fuel = k + 1 := ⟨fuel - 1, by omega⟩
  have hroom : ¬maxDepth < depth + 1 := by omega
  rw [htext]
  cases items with
  | nil =>
    have hskip : skipSpace (']' :: rest) = ']' :: rest := rfl
    simp only [value?, renderItems, String.toList_empty, List.nil_append, hskip, if_neg hroom]
    rfl
  | cons j js =>
    have hopens : ∀ k ∈ j :: js, Opens (render k).toList := fun k hk => opens_render (readable k hk)
    have hitems : items? fuel (depth + 1) ((renderItems (j :: js)).toList ++ ']' :: rest) = _ :=
      items?_render (by simp) hopens hreads (by omega)
    have hopen : Opens ((renderItems (j :: js)).toList ++ ']' :: rest) :=
      (opens_renderItems (hopens j (List.mem_cons_self ..))).append _
    simp only [value?, hopen.skipSpace_eq]
    split
    · next heq =>
      obtain ⟨c, r, hc, -, -, -, -, hbracket, -⟩ := hopen
      exact absurd (List.cons.inj (hc.symm.trans heq)).1 hbracket
    · rw [hitems]
      dsimp only
      rw [if_neg hroom]
      rfl

theorem readsBack_record {fields : List (String × Json)} (room : depth < maxDepth)
    (readable : ∀ f ∈ fields, Readable (depth + 1) f.2) (hreads : ∀ f ∈ fields, ReadsBack (depth + 1) f.2) :
    ReadsBack depth (.record fields) := by
  intro fuel rest hfuel _
  have htext : (render (.record fields)).toList ++ rest =
      '\x7b' :: ((renderFields fields).toList ++ '\x7d' :: rest) := by
    simp [render]
  have hlength : (render (.record fields)).toList.length = (renderFields fields).toList.length + 2 := by
    simp [render]
  obtain ⟨fuel, rfl⟩ : ∃ k, fuel = k + 1 := ⟨fuel - 1, by omega⟩
  have hroom : ¬maxDepth < depth + 1 := by omega
  rw [htext]
  cases fields with
  | nil =>
    have hskip : skipSpace ('\x7d' :: rest) = '\x7d' :: rest := rfl
    simp only [value?, renderFields, String.toList_empty, List.nil_append, hskip, if_neg hroom]
    rfl
  | cons f fs =>
    have hopens : ∀ g ∈ f :: fs, Opens (render g.2).toList := fun g hg => opens_render (readable g hg)
    have hfields : fields? fuel (depth + 1) ((renderFields (f :: fs)).toList ++ '\x7d' :: rest) = _ :=
      fields?_render (by simp) hopens hreads (by omega)
    have hopen := (opens_renderFields f fs).append ('\x7d' :: rest)
    simp only [value?, hopen.skipSpace_eq]
    split
    · next heq =>
      obtain ⟨c, r, hc, -, -, -, -, -, hbrace⟩ := hopen
      exact absurd (List.cons.inj (hc.symm.trans heq)).1 hbrace
    · rw [hfields]
      dsimp only
      rw [if_neg hroom]
      rfl

/-- Every value that can be read back is. -/
theorem readsBack {j : Json} (h : Readable depth j) : ReadsBack depth j := by
  induction h with
  | null =>
    intro fuel rest hfuel _
    obtain ⟨fuel, rfl⟩ : ∃ k, fuel = k + 1 := ⟨fuel - 1, by simp [render] at hfuel; omega⟩
    rfl
  | bool b =>
    intro fuel rest hfuel _
    obtain ⟨fuel, rfl⟩ : ∃ k, fuel = k + 1 := ⟨fuel - 1, by cases b <;> simp [render] at hfuel <;> omega⟩
    cases b <;> rfl
  | int fits => exact readsBack_int fits
  | text s => exact readsBack_text s
  | list room readable ih => exact readsBack_list room readable ih
  | record room readable ih => exact readsBack_record room readable ih

end

end Reader

/-- The text of a value reads back as the document of the value. -/
theorem ofJsonText?_render {j : Json} (h : Readable 0 j) : Document.ofJsonText? j.render = some j.toDocument := by
  have hskip : Reader.skipSpace j.render.toList = j.render.toList := (Reader.opens_render h).skipSpace_eq
  have hread := Reader.readsBack h (2 * j.render.toList.length + 2) [] (by omega) (.inl rfl)
  rw [List.append_nil] at hread
  simp only [Document.ofJsonText?, hskip, hread]
  rfl

end Json
end Valuation
