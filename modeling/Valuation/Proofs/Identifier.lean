import Mathlib.Algebra.Group.Nat.Defs
import Valuation.Identifier

/-!
# Generated identifiers differ

What is written in hexadecimal digits can be read again (`hexNumber?_hexDigits`). The groups of a serial text have
fixed lengths, so they can be told apart, and together they hold a serial number of up to 32 digits
(`serialText_inj`). Identifiers of a kind that are generated for different serial numbers therefore differ, as long
as the numbers have no more digits than that.
-/
namespace Valuation

/-! ## Digits -/

theorem hexValue?_digitChar {d : Nat} (h : d < 16) : hexValue? d.digitChar = some d := by
  revert h
  revert d
  decide

theorem hexNumber?_append (cs ds : List Char) :
    hexNumber? (cs ++ ds) =
      (hexNumber? cs).bind fun n => ds.foldlM (fun n c => (hexValue? c).map (16 * n + ·)) n :=
  List.foldlM_append

theorem hexNumber?_toDigits (n : Nat) : hexNumber? (Nat.toDigits 16 n) = some n := by
  induction n using Nat.strongRecOn with
  | ind n ih =>
    rw [Nat.toDigits_eq_if (by decide)]
    split
    · next h => simp [hexNumber?, hexValue?_digitChar h]
    · next h =>
      rw [hexNumber?_append, ih (n / 16) (by omega)]
      simp [hexValue?_digitChar (Nat.mod_lt n (by decide : 0 < 16)), Nat.div_add_mod]

/-- Zeros in front do not count. -/
theorem hexNumber?_replicate_append (k : Nat) (cs : List Char) :
    hexNumber? (List.replicate k '0' ++ cs) = hexNumber? cs := by
  induction k with
  | zero => rfl
  | succ k ih =>
    rw [List.replicate_succ, List.cons_append]
    exact ih

theorem hexNumber?_hexDigits (width n : Nat) : hexNumber? (hexDigits width n).toList = some (n % 16 ^ width) := by
  simp only [hexDigits, String.toList_ofList, hexNumber?_replicate_append, hexNumber?_toDigits]
  rfl

theorem length_hexDigits {width : Nat} (h : 0 < width) (n : Nat) : (hexDigits width n).toList.length = width := by
  have hlt : n % 16 ^ width < 16 ^ width := Nat.mod_lt _ (Nat.pow_pos (by decide))
  have hle := (Nat.length_toDigits_le_iff (by decide) h).2 hlt
  simp only [hexDigits, String.toList_ofList, List.length_append, List.length_replicate]
  exact Nat.sub_add_cancel hle

/-! ## Serial texts -/

/-- A group of digits can be told from what follows it, since its length is fixed. -/
theorem mod_eq_of_hexDigits_append {width m n : Nat} (h : 0 < width) {cs ds : List Char}
    (heq : (hexDigits width m).toList ++ cs = (hexDigits width n).toList ++ ds) :
    m % 16 ^ width = n % 16 ^ width ∧ cs = ds := by
  obtain ⟨hdigits, hrest⟩ := List.append_inj heq (by rw [length_hexDigits h, length_hexDigits h])
  refine ⟨Option.some.inj ?_, hrest⟩
  rw [← hexNumber?_hexDigits, ← hexNumber?_hexDigits, hdigits]

theorem serialText_inj {m n : Nat} (hm : m < 16 ^ 32) (hn : n < 16 ^ 32) (h : serialText m = serialText n) :
    m = n := by
  have hchars := congrArg String.toList h
  simp only [serialText, String.toList_intercalate, List.map_cons, List.map_nil, List.intercalate_cons_cons,
    List.intercalate_singleton, List.append_assoc] at hchars
  obtain ⟨hfirst, hchars⟩ := mod_eq_of_hexDigits_append (by decide) hchars
  obtain ⟨hsecond, hchars⟩ := mod_eq_of_hexDigits_append (by decide) (List.append_cancel_left hchars)
  obtain ⟨hthird, hchars⟩ := mod_eq_of_hexDigits_append (by decide) (List.append_cancel_left hchars)
  obtain ⟨hfourth, hchars⟩ := mod_eq_of_hexDigits_append (by decide) (List.append_cancel_left hchars)
  have hlast : (hexDigits 12 m).toList ++ [] = (hexDigits 12 n).toList ++ [] := by
    rw [List.append_cancel_left hchars]
  obtain ⟨hlast, -⟩ := mod_eq_of_hexDigits_append (by decide) hlast
  simp only [Nat.pow_eq, Nat.reducePow] at hm hn hfirst hsecond hthird hfourth hlast
  omega

theorem generatedText_inj {scheme : String} {m n : Nat} (hm : m < 16 ^ 32) (hn : n < 16 ^ 32)
    (h : generatedText scheme m = generatedText scheme n) : m = n := by
  have hchars := congrArg String.toList h
  simp only [generatedText, String.toList_append] at hchars
  exact serialText_inj hm hn (String.toList_inj.1 (List.append_cancel_left hchars))

theorem ProcessId.generate_inj {m n : Nat} (hm : m < 16 ^ 32) (hn : n < 16 ^ 32)
    (h : ProcessId.generate m = ProcessId.generate n) : m = n :=
  generatedText_inj hm hn (congrArg ProcessId.text h)

theorem CycleId.generate_inj {m n : Nat} (hm : m < 16 ^ 32) (hn : n < 16 ^ 32)
    (h : CycleId.generate m = CycleId.generate n) : m = n :=
  generatedText_inj hm hn (congrArg CycleId.text h)

end Valuation
