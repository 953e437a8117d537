import Mathlib.Algebra.Order.Ring.Int

/-!
This module contains the conversions between `int` and `size_t` on a 64 bit machine, where an `int`
has 32 bits, together with the subtraction of `size_t` values.
-/

def sizeToInt (n : Int) : Int :=
  n.bmod (2 ^ 32)

def intToSize (n : Int) : Nat :=
  (n % 2 ^ 64).toNat

def subSize (a b : Nat) : Nat :=
  intToSize ((a : Int) - b)

theorem sizeToInt_of_lt {n : Nat} (h : n < 2 ^ 31) : sizeToInt n = n := by
  unfold sizeToInt
  apply Int.bmod_eq_of_le
  . omega
  . omega

theorem sizeToInt_lt (n : Int) : sizeToInt n < 2 ^ 31 := by
  apply Int.bmod_lt
  decide

theorem sizeToInt_neg_iff (n : Nat) : sizeToInt (-n) = -n ↔ n ≤ 2 ^ 31 := by
  unfold sizeToInt
  rw [Int.bmod_def]
  split
  . omega
  . omega

theorem sizeToInt_pos_iff (n : Nat)
    : 0 < sizeToInt n ↔ 0 < n % 2 ^ 32 ∧ n % 2 ^ 32 < 2 ^ 31 := by
  unfold sizeToInt
  rw [Int.bmod_def]
  split
  . omega
  . omega

theorem intToSize_of_lt {n : Nat} (h : n < 2 ^ 64) : intToSize n = n := by
  unfold intToSize
  omega

theorem subSize_of_le {a b : Nat} (hb : b ≤ a) (ha : a < 2 ^ 64) : subSize a b = a - b := by
  unfold subSize
  rw [← Int.ofNat_sub hb]
  apply intToSize_of_lt (by omega)

theorem subSize_self (a : Nat) : subSize a a = 0 := by
  unfold subSize
  rw [Int.sub_self]
  rfl

theorem sizeToInt_of_int {n : Int} (hlower : -2 ^ 31 ≤ n) (hupper : n < 2 ^ 31)
    : sizeToInt n = n := by
  apply Int.bmod_eq_of_le
  . omega
  . omega

theorem sizeToInt_int (n : Int) : -2 ^ 31 ≤ sizeToInt n ∧ sizeToInt n < 2 ^ 31 := by
  refine ⟨?_, sizeToInt_lt n⟩
  apply Int.le_bmod
  decide

theorem sizeToInt_add_intToSize (i n : Int) : sizeToInt (i + intToSize n) = sizeToInt (i + n) := by
  unfold sizeToInt intToSize
  rw [Int.bmod_def, Int.bmod_def]
  split
  . omega
  . omega

theorem sizeToInt_add_eq_iff {i n : Int} (hi : -2 ^ 31 ≤ i ∧ i < 2 ^ 31)
    (hlower : -2 ^ 31 ≤ n) (hupper : n < 2 ^ 31) : sizeToInt (i + n) = i ↔ n = 0 := by
  unfold sizeToInt
  rw [Int.bmod_def]
  split
  . omega
  . omega
