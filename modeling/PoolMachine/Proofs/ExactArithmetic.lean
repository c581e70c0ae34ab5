import Mathlib.Data.Int.ModEq
import Mathlib.Data.Rat.Floor
import PoolMachine.Value

/-!
# Operators and exact arithmetic

**Theorem (`Operator.apply_exact`).** An operator on two integers gives the value of the exact
result: the truth of a comparison, and the one word that is congruent to a number modulo `2 ^ 64`.
It fails where an operand is no integer, or where a divisor is zero, and nowhere else. The quotient
is the exact floor but for the least word divided by minus one; the remainder is always exact, and
so are the two steps that correct a truncating division.

The exact results (`Operator.exact`) are those of integers and rationals. Words enter at two places:

* a word is the image of an integer under `Int64.ofInt`, which respects sums, differences and
  products, and hits each class modulo `2 ^ 64` once (`Word.modEq_iff`);
* truncating and flooring division differ by one step, seen in the sign of the truncated remainder
  (`fdiv_fmod_eq_tdiv_tmod`). This is a law of integers, so the words only have to take the step
  where the integers do (`Word.floorDiv_eq_ofInt`).
-/

namespace PoolMachine

/-! ## Exact results -/

/-- The exact result of an operator, which is a number or a truth value. -/
def Operator.exact (f : Operator) (l r : Int) : Int ⊕ Bool :=
  match f with
  | add => .inl (l + r)
  | minus => .inl (l - r)
  | times => .inl (l * r)
  | div => .inl ⌊(l / r : ℚ)⌋
  | mod => .inl (l - r * ⌊(l / r : ℚ)⌋)
  | gt => .inr (r < l)
  | lt => .inr (l < r)
  | eq => .inr (l = r)
  | neq => .inr (l ≠ r)
  | geq => .inr (r ≤ l)
  | leq => .inr (l ≤ r)

namespace Value

/-- A value stands for an exact result: a boolean for its truth value, an integer for all numbers in
its class. -/
def StandsFor : Value → Int ⊕ Bool → Prop
  | integer n, .inl x => n.toInt ≡ x [ZMOD 2 ^ 64]
  | boolean b, .inr c => b = c
  | _, _ => False

/-- The value of an exact result. -/
def ofExact : Int ⊕ Bool → Value
  | .inl x => integer (.ofInt x)
  | .inr b => boolean b

end Value

theorem Word.modEq_iff {n : Word} {x : Int} : n.toInt ≡ x [ZMOD 2 ^ 64] ↔ n = .ofInt x := by
  rw [eq_comm, Int64.ofInt_eq_iff_bmod_eq_toInt]
  constructor
  · intro h
    rw [← Int64.toInt_bmod n, ← Int.emod_bmod x, ← Int.emod_bmod n.toInt]
    exact congrArg (Int.bmod · (2 ^ 64)) h.symm
  · intro h
    rw [← h]
    exact Int.bmod_emod

theorem Value.exists_integer {v : Value} (h : v.kind = .integer) : ∃ n, v = .integer n := by
  cases v <;> cases h
  exact ⟨_, rfl⟩

theorem Value.standsFor_iff {v : Value} {x : Int ⊕ Bool} : v.StandsFor x ↔ v = .ofExact x := by
  cases v with
  | integer n =>
    cases x with
    | inl x => exact Word.modEq_iff.trans (integer.injEq n _ ▸ Iff.rfl)
    | inr c => simp [StandsFor, ofExact]
  | boolean b => cases x <;> simp [StandsFor, ofExact]
  | string s => cases x <;> simp [StandsFor, ofExact]

/-! ## Flooring division of integers -/

theorem floor_div_eq_fdiv (l : Int) {r : Int} (hr : r ≠ 0) : ⌊(l / r : ℚ)⌋ = l.fdiv r := by
  have hr' : (r : ℚ) ≠ 0 := Int.cast_ne_zero.mpr hr
  have hsum : (l / r : ℚ) = l.fdiv r + l.fmod r / r := by
    have h := congrArg (Int.cast : Int → ℚ) (Int.fdiv_mul_add_fmod l r)
    rw [← h]
    push_cast
    rw [add_div, mul_div_cancel_right₀ _ hr']
  have hpart : 0 ≤ (l.fmod r / r : ℚ) ∧ (l.fmod r / r : ℚ) < 1 := by
    rcases Int.lt_or_gt_of_ne hr with hneg | hpos
    · obtain ⟨-, hlt, hle⟩ := (Int.fdiv_fmod_unique' (a := l) hneg).mp ⟨rfl, rfl⟩
      exact ⟨div_nonneg_of_nonpos (by exact_mod_cast hle) (by exact_mod_cast hneg.le),
        (div_lt_one_of_neg (by exact_mod_cast hneg)).mpr (by exact_mod_cast hlt)⟩
    · obtain ⟨-, hge, hlt⟩ := (Int.fdiv_fmod_unique (a := l) hpos).mp ⟨rfl, rfl⟩
      exact ⟨div_nonneg (by exact_mod_cast hge) (by exact_mod_cast hpos.le),
        (div_lt_one (by exact_mod_cast hpos)).mpr (by exact_mod_cast hlt)⟩
  rw [hsum, Int.floor_intCast_add, Int.floor_eq_zero_iff.mpr hpart, add_zero]

theorem natAbs_tmod_lt (l : Int) {r : Int} (hr : r ≠ 0) : (l.tmod r).natAbs < r.natAbs := by
  rw [Int.natAbs_tmod]
  exact Nat.mod_lt _ (Int.natAbs_pos.mpr hr)

/-- Flooring and truncating division differ by one step, where the truncated remainder is not zero
and has not the sign of the divisor. -/
theorem fdiv_fmod_eq_tdiv_tmod (l : Int) {r : Int} (hr : r ≠ 0) :
    l.fdiv r = (if l.tmod r ≠ 0 ∧ (l.tmod r < 0 ↔ 0 < r) then l.tdiv r - 1 else l.tdiv r) ∧
      l.fmod r = if l.tmod r ≠ 0 ∧ (l.tmod r < 0 ↔ 0 < r) then l.tmod r + r else l.tmod r := by
  have hsum := Int.tmod_add_mul_tdiv l r
  have hstep : r * (l.tdiv r - 1) = r * l.tdiv r - r := by rw [Int.mul_sub, Int.mul_one]
  have hsmall := natAbs_tmod_lt l hr
  rcases Int.lt_or_gt_of_ne hr with hneg | hpos
  · rw [Int.fdiv_fmod_unique' hneg]
    split <;> omega
  · rw [Int.fdiv_fmod_unique hpos]
    split <;> omega

theorem fmod_range (l : Int) {r : Int} (hr : r ≠ 0) :
    (l.fmod r = 0 ∨ (l.fmod r).sign = r.sign) ∧ (l.fmod r).natAbs < r.natAbs := by
  rcases Int.lt_or_gt_of_ne hr with hneg | hpos
  · obtain ⟨-, hlt, hle⟩ := (Int.fdiv_fmod_unique' (a := l) hneg).mp ⟨rfl, rfl⟩
    refine ⟨?_, by omega⟩
    rcases Int.lt_or_eq_of_le hle with h | h
    · exact .inr (by rw [Int.sign_eq_neg_one_of_neg h, Int.sign_eq_neg_one_of_neg hneg])
    · exact .inl h
  · obtain ⟨-, hge, hlt⟩ := (Int.fdiv_fmod_unique (a := l) hpos).mp ⟨rfl, rfl⟩
    refine ⟨?_, by omega⟩
    rcases Int.lt_or_eq_of_le hge with h | h
    · exact .inr (by rw [Int.sign_eq_one_of_pos h, Int.sign_eq_one_of_pos hpos])
    · exact .inl h.symm

/-! ## Division of words -/

namespace Word

variable (l : Word) {r : Word}

theorem toInt_ne_zero (hr : r ≠ 0) : r.toInt ≠ 0 := by
  intro h
  exact hr (Int64.toInt_inj.mp h)

/-- The truncating division has to be corrected: it leaves a remainder, whose sign is not that of
the divisor. -/
def Corrects (l r : Word) : Prop := l % r ≠ 0 ∧ (l % r < 0 ↔ 0 < r)

instance (l r : Word) : Decidable (Corrects l r) := inferInstanceAs (Decidable (_ ∧ _))

theorem floorDiv_eq_ite (l r : Word) :
    l.floorDiv r = if Corrects l r then l / r - 1 else l / r := rfl

theorem floorMod_eq_ite (l r : Word) :
    l.floorMod r = if Corrects l r then l % r + r else l % r := rfl

theorem corrects_iff {l r : Word} :
    Corrects l r ↔ l.toInt.tmod r.toInt ≠ 0 ∧ (l.toInt.tmod r.toInt < 0 ↔ 0 < r.toInt) := by
  rw [Corrects, ne_eq, ← Int64.toInt_inj, Int64.lt_iff_toInt_lt, Int64.lt_iff_toInt_lt,
    Int64.toInt_mod, Int64.toInt_zero]

theorem div_eq_ofInt (l r : Word) : l / r = .ofInt (l.toInt.tdiv r.toInt) := by
  rw [eq_comm, Int64.ofInt_eq_iff_bmod_eq_toInt, Int64.toInt_div]

theorem mod_eq_ofInt (l r : Word) : l % r = .ofInt (l.toInt.tmod r.toInt) := by
  rw [← Int64.toInt_mod, Int64.ofInt_toInt]

/-- **The quotient of words is the exact floor**, up to its class. -/
theorem floorDiv_eq_ofInt (hr : r ≠ 0) : l.floorDiv r = .ofInt (l.toInt.fdiv r.toInt) := by
  rw [floorDiv_eq_ite, (fdiv_fmod_eq_tdiv_tmod l.toInt (toInt_ne_zero hr)).1]
  simp only [corrects_iff]
  split
  · rw [Int64.ofInt_sub, ← div_eq_ofInt]
    rfl
  · exact div_eq_ofInt l r

theorem floorMod_eq_ofInt (hr : r ≠ 0) : l.floorMod r = .ofInt (l.toInt.fmod r.toInt) := by
  rw [floorMod_eq_ite, (fdiv_fmod_eq_tdiv_tmod l.toInt (toInt_ne_zero hr)).2]
  simp only [corrects_iff]
  split
  · rw [Int64.ofInt_add, ← mod_eq_ofInt, Int64.ofInt_toInt]
  · exact mod_eq_ofInt l r

/-! ### Steps that do not wrap -/

/-- An inexact quotient is not the least word, so one can be taken from it. -/
theorem toInt_div_sub_one {l r : Word} (h : l % r ≠ 0) :
    (l / r - 1).toInt = (l / r).toInt - 1 := by
  have hr : r.toInt ≠ 1 ∧ r.toInt ≠ -1 := by
    rw [ne_eq, ← Int64.toInt_inj, Int64.toInt_mod] at h
    constructor <;> intro hone <;> rw [hone] at h <;> simp at h
  have hdiv : (l / r).toInt = l.toInt.tdiv r.toInt := by
    apply Int64.toInt_div_of_ne_right
    rintro rfl
    exact hr.2 rfl
  -- A divisor other than one and minus one at least halves the distance from zero.
  have hhalf : (l.toInt.tdiv r.toInt).natAbs ≤ l.toInt.natAbs / 2 := by
    rw [Int.natAbs_tdiv]
    rcases Nat.lt_or_ge r.toInt.natAbs 2 with hlt | hge
    · have hzero : r.toInt.natAbs = 0 := by omega
      rw [hzero]
      exact (Nat.div_zero _).trans_le (Nat.zero_le _)
    · exact Nat.div_le_div_left hge (by decide)
  have hl := l.le_toInt
  have hl' := l.toInt_lt
  rw [Int64.toInt_sub, hdiv, Int64.toInt_one]
  exact Int.bmod_eq_of_le (by omega) (by omega)

theorem toInt_mod_add {l r : Word} (h : l % r < 0 ↔ 0 < r) :
    (l % r + r).toInt = (l % r).toInt + r.toInt := by
  rw [Int64.lt_iff_toInt_lt, Int64.lt_iff_toInt_lt, Int64.toInt_zero] at h
  have hm := (l % r).le_toInt
  have hm' := (l % r).toInt_lt
  have hr := r.le_toInt
  have hr' := r.toInt_lt
  rw [Int64.toInt_add]
  exact Int.bmod_eq_of_le (by omega) (by omega)

/-- **The quotient of words is exact** but for the least word divided by minus one. -/
theorem toInt_floorDiv_iff (hr : r ≠ 0) :
    (l.floorDiv r).toInt = l.toInt.fdiv r.toInt ↔ ¬ (l = Int64.minValue ∧ r = -1) := by
  constructor
  · rintro h ⟨rfl, rfl⟩
    exact absurd h (by decide)
  · intro h
    have hdiv : (l / r).toInt = l.toInt.tdiv r.toInt := by
      by_cases hl : l = Int64.minValue
      · exact Int64.toInt_div_of_ne_right l r fun hr => h ⟨hl, hr⟩
      · exact Int64.toInt_div_of_ne_left l r hl
    rw [floorDiv_eq_ite, (fdiv_fmod_eq_tdiv_tmod l.toInt (toInt_ne_zero hr)).1]
    simp only [corrects_iff]
    split
    case isTrue hstep =>
      rw [toInt_div_sub_one (corrects_iff.mpr hstep).1, hdiv]
    case isFalse => exact hdiv

/-- **The remainder of words is exact.** -/
theorem toInt_floorMod (hr : r ≠ 0) : (l.floorMod r).toInt = l.toInt.fmod r.toInt := by
  rw [floorMod_eq_ite, (fdiv_fmod_eq_tdiv_tmod l.toInt (toInt_ne_zero hr)).2]
  simp only [corrects_iff]
  split
  case isTrue hstep =>
    rw [toInt_mod_add (corrects_iff.mpr hstep).2, Int64.toInt_mod]
  case isFalse => exact Int64.toInt_mod l r

theorem floorDiv_mul_add_floorMod (hr : r ≠ 0) : l.floorDiv r * r + l.floorMod r = l := by
  calc l.floorDiv r * r + l.floorMod r
      = .ofInt (l.toInt.fdiv r.toInt) * .ofInt r.toInt + .ofInt (l.toInt.fmod r.toInt) := by
        rw [floorDiv_eq_ofInt l hr, floorMod_eq_ofInt l hr, Int64.ofInt_toInt]
    _ = .ofInt (l.toInt.fdiv r.toInt * r.toInt + l.toInt.fmod r.toInt) := by
        rw [Int64.ofInt_add, Int64.ofInt_mul]
    _ = l := by rw [Int.fdiv_mul_add_fmod, Int64.ofInt_toInt]

end Word

/-! ## Operators -/

namespace Operator

/-- **An operator gives the value of the exact result** wherever it gives one. -/
theorem onWords_eq_ofExact (f : Operator) {l r : Word} (h : ¬ ((f = div ∨ f = mod) ∧ r = 0)) :
    f.onWords l r = .ok (.ofExact (f.exact l.toInt r.toInt)) := by
  cases f with
  | add => simp [onWords, exact, Value.ofExact, Int64.ofInt_add]
  | minus => simp [onWords, exact, Value.ofExact, Int64.ofInt_sub]
  | times => simp [onWords, exact, Value.ofExact, Int64.ofInt_mul]
  | div =>
    have hr : r ≠ 0 := fun hr => h ⟨.inl rfl, hr⟩
    rw [onWords, if_neg hr, exact, floor_div_eq_fdiv _ (Word.toInt_ne_zero hr),
      Word.floorDiv_eq_ofInt l hr]
    rfl
  | mod =>
    have hr : r ≠ 0 := fun hr => h ⟨.inr rfl, hr⟩
    rw [onWords, if_neg hr, exact, floor_div_eq_fdiv _ (Word.toInt_ne_zero hr), ← Int.fmod_def,
      Word.floorMod_eq_ofInt l hr]
    rfl
  | gt | lt => simp [onWords, exact, Value.ofExact, Int64.lt_iff_toInt_lt]
  | eq | neq => simp [onWords, exact, Value.ofExact, Int64.toInt_inj]
  | geq | leq => simp [onWords, exact, Value.ofExact, Int64.le_iff_toInt_le]

theorem onWords_divisionByZero_iff {f : Operator} {l r : Word} :
    f.onWords l r = .error .divisionByZero ↔ (f = div ∨ f = mod) ∧ r = 0 := by
  constructor
  · intro h
    by_contra hno
    rw [onWords_eq_ofExact f hno] at h
    cases h
  · rintro ⟨rfl | rfl, rfl⟩ <;> rfl

theorem onWords_ne_mismatch (f : Operator) (l r : Word) (m : KindMismatch) :
    f.onWords l r ≠ .error (.mismatch m) := by
  by_cases h : (f = div ∨ f = mod) ∧ r = 0
  · rw [onWords_divisionByZero_iff.mpr h]
    nofun
  · rw [onWords_eq_ofExact f h]
    nofun

theorem apply_of_not_integers (f : Operator) {left right : Value}
    (h : ¬ (left.kind = .integer ∧ right.kind = .integer)) :
    f.apply left right = .error (.mismatch ⟨.operate f, .integer,
      if left.kind = .integer then right.kind else left.kind⟩) := by
  cases left with
  | integer l =>
    cases right with
    | integer r => exact absurd ⟨rfl, rfl⟩ h
    | string | boolean => rfl
  | string | boolean => rfl

/-- **Operators on integers are exact arithmetic.** -/
theorem apply_exact :
    (∀ (f : Operator) (left right : Value),
      -- An operand that is no integer is a mismatch; of two, the left one is named.
      (∀ m, f.apply left right = .error (.mismatch m) ↔
        ¬ (left.kind = .integer ∧ right.kind = .integer) ∧
          m = ⟨.operate f, .integer, if left.kind = .integer then right.kind else left.kind⟩) ∧
      -- The only other fault is a divisor of zero.
      (f.apply left right = .error .divisionByZero ↔
        ∃ l, left = .integer l ∧ right = .integer 0 ∧ (f = .div ∨ f = .mod))) ∧
    -- Otherwise there is a result, the one value that stands for the exact one.
    (∀ (f : Operator) (l r : Word), ¬ ((f = .div ∨ f = .mod) ∧ r = 0) →
      ∃ v, f.apply (.integer l) (.integer r) = .ok v ∧
        ∀ v' : Value, v'.StandsFor (f.exact l.toInt r.toInt) ↔ v' = v) ∧
    ∀ l r : Word, r ≠ 0 →
      ∃ q m : Word, div.apply (.integer l) (.integer r) = .ok (.integer q) ∧
        mod.apply (.integer l) (.integer r) = .ok (.integer m) ∧
        -- The quotient is exact in all cases but one.
        (q.toInt = ⌊(l.toInt / r.toInt : ℚ)⌋ ↔ ¬ (l.toInt = -2 ^ 63 ∧ r.toInt = -1)) ∧
        -- The remainder is exact, and smaller than the divisor, with its sign.
        m.toInt = l.toInt - r.toInt * ⌊(l.toInt / r.toInt : ℚ)⌋ ∧
        (m = 0 ∨ m.toInt.sign = r.toInt.sign) ∧ |m.toInt| < |r.toInt| ∧
        -- The steps that correct the truncating division do not wrap.
        q = (if Word.Corrects l r then l / r - 1 else l / r) ∧
        m = (if Word.Corrects l r then l % r + r else l % r) ∧
        (Word.Corrects l r → (l / r - 1).toInt = (l / r).toInt - 1 ∧
          (l % r + r).toInt = (l % r).toInt + r.toInt) ∧
        -- Together they give the dividend back.
        q * r + m = l := by
  refine ⟨fun f left right => ⟨fun m => ⟨fun h => ?_, ?_⟩, ⟨fun h => ?_, ?_⟩⟩, ?_, ?_⟩
  · by_cases hkinds : left.kind = .integer ∧ right.kind = .integer
    · obtain ⟨l, rfl⟩ := Value.exists_integer hkinds.1
      obtain ⟨r, rfl⟩ := Value.exists_integer hkinds.2
      exact absurd h (onWords_ne_mismatch f l r m)
    · rw [apply_of_not_integers f hkinds] at h
      cases h
      exact ⟨hkinds, rfl⟩
  · rintro ⟨hkinds, rfl⟩
    exact apply_of_not_integers f hkinds
  · by_cases hkinds : left.kind = .integer ∧ right.kind = .integer
    · obtain ⟨l, rfl⟩ := Value.exists_integer hkinds.1
      obtain ⟨r, rfl⟩ := Value.exists_integer hkinds.2
      obtain ⟨hf, rfl⟩ := onWords_divisionByZero_iff.mp h
      exact ⟨l, rfl, rfl, hf⟩
    · rw [apply_of_not_integers f hkinds] at h
      cases h
  · rintro ⟨l, rfl, rfl, hf⟩
    exact onWords_divisionByZero_iff.mpr ⟨hf, rfl⟩
  · intro f l r h
    exact ⟨_, onWords_eq_ofExact f h, fun v' => Value.standsFor_iff⟩
  · intro l r hr
    have hleast : l = Int64.minValue ↔ l.toInt = -2 ^ 63 := by
      rw [← Int64.toInt_inj, Int64.toInt_minValue]
    have hminus : r = -1 ↔ r.toInt = -1 := by
      rw [← Int64.toInt_inj]
      rfl
    have hzero : l.floorMod r = 0 ↔ l.toInt.fmod r.toInt = 0 := by
      rw [← Int64.toInt_inj, Word.toInt_floorMod l hr, Int64.toInt_zero]
    obtain ⟨hsign, hsmall⟩ := fmod_range l.toInt (Word.toInt_ne_zero hr)
    rw [floor_div_eq_fdiv _ (Word.toInt_ne_zero hr), ← Int.fmod_def]
    refine ⟨l.floorDiv r, l.floorMod r, if_neg hr, if_neg hr, ?_, Word.toInt_floorMod l hr, ?_, ?_,
      rfl, rfl, ?_, Word.floorDiv_mul_add_floorMod l hr⟩
    · rw [Word.toInt_floorDiv_iff l hr, hleast, hminus]
    · rwa [Word.toInt_floorMod l hr, hzero]
    · rw [Word.toInt_floorMod l hr, Int.abs_eq_natAbs, Int.abs_eq_natAbs]
      exact Int.ofNat_lt.mpr hsmall
    · intro h
      exact ⟨Word.toInt_div_sub_one h.1, Word.toInt_mod_add h.2⟩

/-- The least word divided by three, which has to be corrected, and by minus one, which wraps. -/
theorem apply_exact_least :
    ((3 : Word) ≠ 0 ∧ Word.Corrects Int64.minValue 3 ∧
      ∃ q m : Word, div.apply (.integer Int64.minValue) (.integer 3) = .ok (.integer q) ∧
        q.toInt = ⌊(Int64.minValue.toInt / (3 : Word).toInt : ℚ)⌋ ∧
        q.toInt = (Int64.minValue / 3 : Word).toInt - 1 ∧ q * 3 + m = Int64.minValue) ∧
    (-1 : Word) ≠ 0 ∧
      ∃ q m : Word, div.apply (.integer Int64.minValue) (.integer (-1)) = .ok (.integer q) ∧
        q.toInt ≠ ⌊(Int64.minValue.toInt / (-1 : Word).toInt : ℚ)⌋ ∧
        q * -1 + m = Int64.minValue := by
  obtain ⟨-, -, hdivision⟩ := apply_exact
  have hcorrects : Word.Corrects Int64.minValue 3 := by decide
  obtain ⟨q, m, hq, -, hfloor, -, -, -, hstep, -, hexact, hsum⟩ :=
    hdivision Int64.minValue 3 (by decide)
  obtain ⟨q', m', hq', -, hfloor', -, -, -, -, -, -, hsum'⟩ :=
    hdivision Int64.minValue (-1) (by decide)
  refine ⟨⟨by decide, hcorrects, q, m, hq, hfloor.mpr (by decide), ?_, hsum⟩,
    by decide, q', m', hq', fun h => hfloor'.mp h (by decide), hsum'⟩
  rw [hstep, if_pos hcorrects, (hexact hcorrects).1]

end Operator

end PoolMachine
