import Mathlib.Algebra.Order.Ring.Int
import PoolMachine.Machine.Effect

/-!
# Jump targets

Jumps are computed in words. Read as integers, the clamped sum is the exact sum held to the range of
words, and the target of a forward jump is exact up to the largest word.
-/

namespace PoolMachine

/-- The exact target of a forward jump, held at the largest word. -/
def exactTarget (address : Nat) (distance : Word) : Int :=
  min (address + 1 + distance.toInt) (2 ^ 63 - 1)

/-- The address at an exact target; a negative one is refused. -/
def goTo (target : Int) : Except Fault Nat :=
  if target < 0 then .error (.jumpOutOfRange (.ofInt target)) else .ok target.toNat

theorem Word.toInt_addClamped (a b : Word) :
    (Word.addClamped a b).toInt = max (min (a.toInt + b.toInt) (2 ^ 63 - 1)) (-2 ^ 63) := by
  have ha := a.le_toInt
  have ha' := a.toInt_lt
  have hb := b.le_toInt
  have hb' := b.toInt_lt
  -- The wrapped sum is the exact one, or off by the size of a word in the direction of `b`.
  have hsum : (a + b).toInt = (a.toInt + b.toInt).bmod (2 ^ 64) := Int64.toInt_add a b
  rw [Int.bmod_def] at hsum
  unfold Word.addClamped
  simp only [Int64.le_iff_toInt_le, Int64.lt_iff_toInt_lt, Int64.toInt_zero]
  split
  · split
    · rw [Int64.toInt_maxValue]
      omega
    · omega
  · split
    · rw [Int64.toInt_minValue]
      omega
    · omega

/-- The address after an instruction is a word if it is small. -/
theorem Word.toInt_ofNat_add_one {address : Nat} (h : address + 1 < 2 ^ 63) :
    (Int64.ofNat address + 1).toInt = address + 1 := by
  rw [Int64.toInt_add, Int64.toInt_ofNat_of_lt (by omega), Int64.toInt_one]
  exact Int.bmod_eq_of_le (by omega) (by omega)

theorem toInt_forwardTarget {address : Nat} (h : address + 1 < 2 ^ 63) (distance : Word) :
    (forwardTarget address distance).toInt = exactTarget address distance := by
  rw [forwardTarget, Word.toInt_addClamped, Word.toInt_ofNat_add_one h, exactTarget]
  have hd := distance.le_toInt
  omega

theorem jumpTo_eq_goTo (target : Word) : jumpTo target = goTo target.toInt := by
  simp only [jumpTo, goTo, Int64.lt_iff_toInt_lt, Int64.toInt_zero, Int64.ofInt_toInt]

end PoolMachine
