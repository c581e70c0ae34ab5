import Mathlib.Algebra.BigOperators.Fin
import PoolMachine.Proofs.OutputLines

/-!
# Numerals and their values

**Theorem (`Item.ofToken_exact`).** A run of digits stands for its value if that is at most
`2 ^ 63 - 1`, and is out of range otherwise, however long it is and however many zeros it starts
with. The text that is printed for an integer reads back as that integer unless it is negative; then
it stands for a string.

* *Values* (`Text.placeValue`). Each digit counts by its place. Reading from the left gives the same
  number (`Text.ofDigitChars_eq_placeValue`).
* *Words* (`Word.ofDigits?`). The digits are read one by one within the range of words. A value that
  leaves the range does not come back, so a digit is refused exactly if the whole number is no word
  (`Word.ofDigits?_eq_some_iff`).
* *Texts* (`Text.numeral?_eq_some_iff_zeros_append`). The numerals of a number are its decimal text
  with zeros in front, so the text of a word that is not negative is one of the numerals of that
  word (`Item.ofToken_eq_integer_iff`).
-/

namespace PoolMachine

/-! ## Values by place -/

namespace Text

/-- The value of a digit. -/
def digit (c : Char) : Nat := c.toNat - '0'.toNat

/-- The value of a run of digits: each counts as often as the power of ten of its place says. -/
def placeValue (cs : List Char) : Nat :=
  ∑ i : Fin cs.length, digit cs[i] * 10 ^ (cs.length - 1 - i)

variable {c : Char} {cs : List Char} {n : Nat}

theorem digit_lt_ten (h : c.isDigit = true) : digit c < 10 := by
  have hc := toNat_of_isDigit h
  show c.toNat - 48 < 10
  omega

theorem toDigits_digit (h : c.isDigit = true) : Nat.toDigits 10 (digit c) = [c] := by
  have hc := toNat_of_isDigit h
  have hchar : Nat.digitChar (digit c) = c := by
    apply Char.toNat_inj.mp
    rw [Nat.toNat_digitChar_of_lt_ten (digit_lt_ten h)]
    show 48 + (c.toNat - 48) = c.toNat
    omega
  rw [Nat.toDigits_of_lt_base (digit_lt_ten h), hchar]

theorem placeValue_nil : placeValue [] = 0 := rfl

theorem placeValue_cons (c : Char) (cs : List Char) :
    placeValue (c :: cs) = digit c * 10 ^ cs.length + placeValue cs := by
  have hplace (i : Fin cs.length) : cs.length + 1 - 1 - (i.succ : Nat) = cs.length - 1 - i := by
    rw [Fin.val_succ]
    omega
  calc
    placeValue (c :: cs)
      = digit c * 10 ^ (cs.length + 1 - 1 - 0) +
          ∑ i : Fin cs.length, digit cs[i] * 10 ^ (cs.length + 1 - 1 - (i.succ : Nat)) :=
        Fin.sum_univ_succ (n := cs.length) _
    _ = digit c * 10 ^ cs.length + placeValue cs := by
        simp only [hplace]
        rfl

/-- **Reading from the left adds up the places.** -/
theorem ofDigitChars_eq_placeValue (cs : List Char) :
    Nat.ofDigitChars 10 cs 0 = placeValue cs := by
  induction cs with
  | nil => rfl
  | cons c cs ih =>
    rw [Nat.ofDigitChars_cons, Nat.ofDigitChars_eq_ofDigitChars_zero, ih, placeValue_cons,
      Nat.mul_zero, Nat.zero_add, Nat.mul_comm]
    rfl

theorem placeValue_concat (cs : List Char) (c : Char) :
    placeValue (cs ++ [c]) = 10 * placeValue cs + digit c := by
  rw [← ofDigitChars_eq_placeValue, Nat.ofDigitChars_append, Nat.ofDigitChars_cons,
    Nat.ofDigitChars_nil, ofDigitChars_eq_placeValue]
  rfl

theorem numeral?_of_digits (hne : cs ≠ []) (hdigits : ∀ c ∈ cs, c.isDigit = true) :
    numeral? cs = some (placeValue cs) :=
  numeral?_eq_some_iff.mpr
    ⟨hne, List.all_eq_true.mpr hdigits, ofDigitChars_eq_placeValue cs⟩

/-! ## Numerals of a number -/

theorem exists_eq_zeros_append (hne : cs ≠ []) (hdigits : ∀ c ∈ cs, c.isDigit = true) :
    ∃ k, cs = List.replicate k '0' ++ Nat.toDigits 10 (placeValue cs) := by
  induction cs using List.reverseRecOn with
  | nil => exact absurd rfl hne
  | append_singleton cs c ih =>
    have hc := toDigits_digit (hdigits c (by simp))
    rw [placeValue_concat]
    by_cases hnil : cs = []
    · subst hnil
      exact ⟨0, by simp [placeValue_nil, hc]⟩
    obtain ⟨k, hk⟩ := ih hnil fun d hd => hdigits d (List.mem_append_left _ hd)
    rcases Nat.eq_zero_or_pos (placeValue cs) with hzero | hpos
    · -- All digits in front are zeros, the last of them too.
      rw [hzero, Nat.toDigits_zero, ← List.replicate_succ'] at hk
      refine ⟨k + 1, ?_⟩
      rw [hzero, Nat.mul_zero, Nat.zero_add, hc, ← hk]
    · refine ⟨k, ?_⟩
      rw [← Nat.toDigits_append_toDigits (by decide) hpos (digit_lt_ten (hdigits c (by simp))), hc,
        ← List.append_assoc, ← hk]

/-- **The numerals of a number** are its text with zeros in front. -/
theorem numeral?_eq_some_iff_zeros_append :
    numeral? cs = some n ↔ ∃ k, cs = List.replicate k '0' ++ Nat.toDigits 10 n := by
  rw [numeral?_eq_some_iff, ofDigitChars_eq_placeValue]
  constructor
  · rintro ⟨hne, hdigits, rfl⟩
    exact exists_eq_zeros_append hne (List.all_eq_true.mp hdigits)
  · rintro ⟨k, rfl⟩
    refine ⟨by simp [Nat.toDigits_ne_nil], List.all_eq_true.mpr fun c hc => ?_, ?_⟩
    · rcases List.mem_append.mp hc with hzero | hdigit
      · rw [List.eq_of_mem_replicate hzero]
        rfl
      · exact Nat.isDigit_of_mem_toDigits (by decide) (by decide) hdigit
    · rw [← ofDigitChars_eq_placeValue, Nat.ofDigitChars_append,
        Nat.ofDigitChars_replicate_zero, Nat.mul_zero, Nat.ofDigitChars_ten_toDigits]

end Text

/-! ## Reading within words -/

namespace Word

/-- A word with one more digit behind it, if that is a word. -/
def pushDigit? (n : Word) (d : Nat) : Option Word :=
  if n ≤ (Int64.maxValue - Int64.ofNat d) / 10 then some (n * 10 + Int64.ofNat d) else none

/-- The word that a run of digits stands for, read digit by digit. -/
def ofDigits? (cs : List Char) : Option Word :=
  cs.foldlM (fun n c => n.pushDigit? (Text.digit c)) 0

theorem exists_toInt_eq_iff {v : Nat} : (∃ n : Word, n.toInt = v) ↔ v ≤ 2 ^ 63 - 1 := by
  constructor
  · rintro ⟨n, hn⟩
    have hlt := n.toInt_lt
    omega
  · intro hv
    exact ⟨Int64.ofNat v, Int64.toInt_ofNat_of_lt (by omega)⟩

theorem toInt_room {d : Nat} (hd : d < 10) :
    ((Int64.maxValue - Int64.ofNat d) / 10).toInt = (2 ^ 63 - 1 - d) / 10 := by
  have hten : (10 : Int64).toInt = 10 := rfl
  have hsub : (Int64.maxValue - Int64.ofNat d).toInt = 2 ^ 63 - 1 - d := by
    rw [Int64.toInt_sub, Int64.toInt_ofNat_of_lt (by omega), Int64.toInt_maxValue]
    exact Int.bmod_eq_of_le (by omega) (by omega)
  rw [Int64.toInt_div, hsub, hten, Int.tdiv_eq_ediv_of_nonneg (by omega)]
  exact Int.bmod_eq_of_le (by omega) (by omega)

/-- **A digit is taken exactly if the number with it is a word.** -/
theorem pushDigit?_eq_some_iff {n m : Word} {d : Nat} (hn : 0 ≤ n.toInt) (hd : d < 10) :
    n.pushDigit? d = some m ↔ m.toInt = 10 * n.toInt + d := by
  have hroom : n ≤ (Int64.maxValue - Int64.ofNat d) / 10 ↔ 10 * n.toInt + d ≤ 2 ^ 63 - 1 := by
    rw [Int64.le_iff_toInt_le, toInt_room hd]
    omega
  unfold pushDigit?
  by_cases h : n ≤ (Int64.maxValue - Int64.ofNat d) / 10
  · have hsmall := hroom.mp h
    have hpush : (n * 10 + Int64.ofNat d).toInt = 10 * n.toInt + d := by
      have hten : (10 : Int64).toInt = 10 := rfl
      rw [Int64.toInt_add, Int64.toInt_mul, Int64.toInt_ofNat_of_lt (by omega), hten,
        Int.bmod_add_bmod, Int.mul_comm]
      exact Int.bmod_eq_of_le (by omega) (by omega)
    rw [if_pos h, Option.some.injEq, ← Int64.toInt_inj, hpush, eq_comm]
  · have hlt := m.toInt_lt
    rw [if_neg h]
    rw [hroom] at h
    refine iff_of_false (by simp) ?_
    omega

theorem ofDigits?_concat (cs : List Char) (c : Char) :
    ofDigits? (cs ++ [c]) = (ofDigits? cs).bind (·.pushDigit? (Text.digit c)) := by
  unfold ofDigits?
  rw [List.foldlM_append]
  simp

/-- **Reading within words is exact.** -/
theorem ofDigits?_eq_some_iff {cs : List Char} {n : Word}
    (hdigits : ∀ c ∈ cs, c.isDigit = true) :
    ofDigits? cs = some n ↔ n.toInt = Text.placeValue cs := by
  induction cs using List.reverseRecOn generalizing n with
  | nil =>
    rw [Text.placeValue_nil, ofDigits?, List.foldlM_nil, Option.pure_def, Option.some.injEq,
      ← Int64.toInt_inj, eq_comm]
    rfl
  | append_singleton cs c ih =>
    have hc := Text.digit_lt_ten (hdigits c (by simp))
    have ih {m : Word} := ih (n := m) fun d hd => hdigits d (List.mem_append_left _ hd)
    rw [ofDigits?_concat, Option.bind_eq_some_iff, Text.placeValue_concat]
    constructor
    · rintro ⟨m, hm, hpush⟩
      rw [ih] at hm
      rw [pushDigit?_eq_some_iff (by omega) hc] at hpush
      omega
    · intro hn
      -- The number without its last digit is smaller, so it is a word as well.
      have hlt := n.toInt_lt
      obtain ⟨m, hm⟩ := exists_toInt_eq_iff.mpr (show Text.placeValue cs ≤ 2 ^ 63 - 1 by omega)
      refine ⟨m, ih.mpr hm, (pushDigit?_eq_some_iff (by omega) hc).mpr ?_⟩
      omega

theorem ofDigits?_eq_none_iff {cs : List Char} (hdigits : ∀ c ∈ cs, c.isDigit = true) :
    ofDigits? cs = none ↔ 2 ^ 63 - 1 < Text.placeValue cs := by
  rw [← Nat.not_le, ← exists_toInt_eq_iff, Option.eq_none_iff_forall_ne_some, not_exists]
  exact forall_congr' fun n => not_congr (ofDigits?_eq_some_iff hdigits)

end Word

/-! ## What numerals stand for -/

theorem Word.isName_text {n : Word} (h : n < 0) : Text.IsName n.text := by
  have hhead : n.text.toList.head? = some '-' := by
    rw [toList_text, if_pos h]
    rfl
  have hne {w : String} (hw : w.toList.head? ≠ some '-') : w ≠ n.text := by
    rintro rfl
    exact hw hhead
  have hmnemonic : ∀ op : Opcode, op.mnemonic.toList.head? ≠ some '-' :=
    Opcode.forall_of_all (by decide)
  exact {
    word := n.isWord_text
    not_mnemonic := fun op _ => hne (hmnemonic op)
    not_digits := by
      rw [toList_text, if_pos h]
      rfl
    not_boolean := ⟨(hne (by decide)).symm, (hne (by decide)).symm⟩
    not_bracket := ⟨(hne (by decide)).symm, (hne (by decide)).symm⟩ }

namespace Item

theorem ofToken_eq_ofDigits? {w : String} (hne : w ≠ "")
    (hdigits : ∀ c ∈ w.toList, c.isDigit = true) (line : Nat) :
    ofToken ⟨w, line⟩ = (Word.ofDigits? w.toList).elim
      (.error ⟨line, .integerOutOfRange w⟩) fun n => .ok (.integer n) := by
  have hnumeral : Text.numeral? (Token.mk w line).text.toList = some (Text.placeValue w.toList) :=
    Text.numeral?_of_digits (by simpa using hne) hdigits
  rw [ofToken_of_numeral hnumeral]
  by_cases hsmall : Text.placeValue w.toList ≤ largestNumeral
  · have hword : (Int64.ofNat (Text.placeValue w.toList)).toInt = Text.placeValue w.toList :=
      Int64.toInt_ofNat_of_lt (Nat.lt_of_le_pred (by decide) hsmall)
    rw [if_pos hsmall, (Word.ofDigits?_eq_some_iff hdigits).mpr hword]
    rfl
  · have hlarge : 2 ^ 63 - 1 < Text.placeValue w.toList := by
      unfold largestNumeral at hsmall
      omega
    rw [if_neg hsmall, (Word.ofDigits?_eq_none_iff hdigits).mpr hlarge]
    rfl

/-- **The numerals of a word** are its text with zeros in front. A negative word has none. -/
theorem ofToken_eq_integer_iff {w : String} {line : Nat} {n : Word} :
    ofToken ⟨w, line⟩ = .ok (.integer n) ↔
      0 ≤ n ∧ ∃ k, w.toList = List.replicate k '0' ++ n.text.toList := by
  constructor
  · intro h
    rcases ofToken_cases h with
      ⟨op, -, hn⟩ | ⟨v, hv, hsmall, hn⟩ | ⟨-, ⟨-, hn⟩ | ⟨-, hn⟩ | hn⟩ <;> cases hn
    have hlt : v < 2 ^ 63 := Nat.lt_of_le_pred (by decide) hsmall
    rw [Text.numeral?_eq_some_iff_zeros_append] at hv
    rw [Word.text_ofNat hlt, Nat.toList_repr]
    refine ⟨?_, hv⟩
    rw [Int64.le_iff_toInt_le, Int64.toInt_ofNat_of_lt hlt]
    exact Int.natCast_nonneg v
  · rintro ⟨hn, k, hk⟩
    have hnonneg : 0 ≤ n.toInt := Int64.le_iff_toInt_le.mp hn
    have hlt := n.toInt_lt
    have hpos : ¬ n < 0 := Int64.not_lt.mpr hn
    rw [Word.toList_text, if_neg hpos, List.nil_append] at hk
    have hnumeral : Text.numeral? (Token.mk w line).text.toList = some n.toInt.natAbs :=
      Text.numeral?_eq_some_iff_zeros_append.mpr ⟨k, hk⟩
    have hsmall : n.toInt.natAbs ≤ largestNumeral := by
      unfold largestNumeral
      omega
    have hword : Int64.ofNat n.toInt.natAbs = n := by
      rw [← Int64.toInt_inj, Int64.toInt_ofNat_of_lt (by omega)]
      omega
    rw [ofToken_of_numeral hnumeral, if_pos hsmall, hword]

/-- **Numerals are read exactly**, and what is printed of an integer reads back unless it is
negative. -/
theorem ofToken_exact :
    -- A run of digits stands for its value if that is a word, and is refused as it stands if not.
    (∀ (w : String) (line : Nat), w ≠ "" → (∀ c ∈ w.toList, c.isDigit = true) →
      ((∃ n : Word, n.toInt = Text.placeValue w.toList ∧ ofToken ⟨w, line⟩ = .ok (.integer n)) ↔
        Text.placeValue w.toList ≤ 2 ^ 63 - 1) ∧
      (ofToken ⟨w, line⟩ = .error ⟨line, .integerOutOfRange w⟩ ↔
        2 ^ 63 - 1 < Text.placeValue w.toList)) ∧
    -- Printing an integer writes a numeral for it, or a string that starts with a minus sign.
    ∀ (code : Code) (limit : Option Nat) (pc : Nat) (n : Word) (rest : Stack) (store : Store)
      (line : Nat),
      ∃ e, Opcode.printItem.perform code limit ⟨pc, .integer n :: rest, store⟩ = .ok e ∧
        (ofToken ⟨e.printed, line⟩ = .ok (.integer n) ↔ 0 ≤ n) ∧
        (n < 0 → e.printed = "-" ++ n.toInt.natAbs.repr ∧
          ofToken ⟨e.printed, line⟩ = .ok (.string e.printed)) := by
  constructor
  · intro w line hne hdigits
    have hread := ofToken_eq_ofDigits? hne hdigits line
    constructor
    · rw [← Word.exists_toInt_eq_iff]
      constructor
      · rintro ⟨n, hn, -⟩
        exact ⟨n, hn⟩
      · rintro ⟨n, hn⟩
        refine ⟨n, hn, ?_⟩
        rw [hread, (Word.ofDigits?_eq_some_iff hdigits).mpr hn]
        rfl
    · rw [hread, ← Word.ofDigits?_eq_none_iff hdigits]
      rcases Word.ofDigits? w.toList with _ | n <;> simp
  · intro code limit pc n rest store line
    refine ⟨⟨⟨pc + 1, rest, store⟩, n.text⟩, rfl, ?_, ?_⟩
    · rw [ofToken_eq_integer_iff]
      exact and_iff_left ⟨0, rfl⟩
    · intro hn
      exact ⟨if_pos hn, ofToken_name (Word.isName_text hn) line⟩

/-- The largest word and its successor, both with zeros in front, and the least word. -/
theorem ofToken_exact_limits :
    (∃ n : Word, n.toInt = 9223372036854775807 ∧
      ofToken ⟨"009223372036854775807", 3⟩ = .ok (.integer n)) ∧
    ofToken ⟨"009223372036854775808", 3⟩ =
      .error ⟨3, .integerOutOfRange "009223372036854775808"⟩ ∧
    ∃ e, Opcode.printItem.perform {} none ⟨0, [.integer Int64.minValue], .empty⟩ = .ok e ∧
      ofToken ⟨e.printed, 3⟩ = .ok (.string "-9223372036854775808") := by
  obtain ⟨hdigits, hprinted⟩ := ofToken_exact
  have hlargest := hdigits "009223372036854775807" 3 (by decide) (List.all_eq_true.mp rfl)
  have hbeyond := hdigits "009223372036854775808" 3 (by decide) (List.all_eq_true.mp rfl)
  refine ⟨?_, ?_, ?_⟩
  · exact hlargest.1.mpr (by decide)
  · exact hbeyond.2.mpr (by decide)
  · obtain ⟨e, he, -, hnegative⟩ := hprinted {} none 0 Int64.minValue [] .empty 3
    obtain ⟨htext, hitem⟩ := hnegative (by decide)
    refine ⟨e, he, ?_⟩
    rw [hitem, htext]
    rfl

end Item

end PoolMachine
