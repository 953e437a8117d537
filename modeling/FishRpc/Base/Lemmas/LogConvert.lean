import FishRpc.Base.Impl.LogStream
import FishRpc.Lib.Decimal

/-!
This module contains the proof that `convert` writes the canonical decimal numeral of its argument.
The loop produces the digits of the absolute value: truncating division rounds a negative number
towards zero and leaves a remainder that is not positive, which the table maps to its digit.
-/

namespace Fish

namespace IntType

theorem min_le_zero (t : IntType) : t.min ≤ 0 := by
  cases t <;> decide

theorem zero_le_max (t : IntType) : 0 ≤ t.max := by
  cases t <;> decide

theorem checked_eq {t : IntType} {v : Int} (h : t.min ≤ v ∧ v ≤ t.max)
    : t.checked v = some ⟨v, h⟩ := by
  unfold checked
  rw [dif_pos h]

-- whatever lies between zero and a value is a value
theorem Value.towards {t : IntType} (i : t.Value) {v : Int}
    (h : 0 ≤ v ∧ v ≤ i.val ∨ i.val ≤ v ∧ v ≤ 0) : t.min ≤ v ∧ v ≤ t.max := by
  have hmin := t.min_le_zero
  have hmax := t.zero_le_max
  have hi := i.property
  omega

theorem Value.promoted {t : IntType} (v : t.Value)
    : t.promoted.min ≤ v.val ∧ v.val ≤ t.promoted.max := by
  have hmin : t.promoted.min ≤ t.min := by
    cases t <;> decide
  have hmax : t.max ≤ t.promoted.max := by
    cases t <;> decide
  have hv := v.property
  omega

theorem Value.natAbs_lt {t : IntType} (v : t.Value) : v.val.natAbs < 10 ^ 20 := by
  have hmin : -10 ^ 20 < t.min := by
    cases t <;> decide
  have hmax : t.max < 10 ^ 20 := by
    cases t <;> decide
  have hv := v.property
  omega

end IntType

namespace LogStream

open Decimal (digit numeral Numeral)

theorem zero_of_digit {d : Int} (h : -10 < d ∧ d < 10) : zero d = some (digit d.natAbs) := by
  have hall : ∀ k : Fin 19, zero ((k.val : Int) - 9) = some (digit ((k.val : Int) - 9).natAbs) := by
    decide
  have hk := hall ⟨(d + 9).toNat, by omega⟩
  have heq : ((d + 9).toNat : Int) - 9 = d := by omega
  simp only [heq] at hk
  apply hk

/-! ### Truncating division -/

theorem natAbs_tmod_ten (i : Int) : (i.tmod 10).natAbs = i.natAbs % 10 := by
  rw [Int.natAbs_tmod]
  rfl

theorem natAbs_tdiv_ten (i : Int) : (i.tdiv 10).natAbs = i.natAbs / 10 := by
  rw [Int.natAbs_tdiv]
  rfl

theorem tmod_ten_towards (i : Int)
    : 0 ≤ i.tmod 10 ∧ i.tmod 10 ≤ i ∨ i ≤ i.tmod 10 ∧ i.tmod 10 ≤ 0 := by
  have habs := natAbs_tmod_ten i
  rcases Int.le_total 0 i with hi | hi
  . have hsign := Int.tmod_nonneg 10 hi
    omega
  . have hsign := Int.tmod_nonneg 10 (Int.neg_nonneg_of_nonpos hi)
    rw [Int.neg_tmod] at hsign
    omega

theorem tdiv_ten_towards (i : Int)
    : 0 ≤ i.tdiv 10 ∧ i.tdiv 10 ≤ i ∨ i ≤ i.tdiv 10 ∧ i.tdiv 10 ≤ 0 := by
  have habs := natAbs_tdiv_ten i
  rcases Int.le_total 0 i with hi | hi
  . have hsign := Int.tdiv_nonneg hi (by decide : (0 : Int) ≤ 10)
    omega
  . have hsign := Int.tdiv_nonneg (Int.neg_nonneg_of_nonpos hi) (by decide : (0 : Int) ≤ 10)
    rw [Int.neg_tdiv] at hsign
    omega

/-! ### The loop -/

theorem convertLoop_eq {t : IntType} {room : Nat} {i : t.Value}
    (h : (Decimal.digits i.val.natAbs).length ≤ room)
    : convertLoop t room i = some ((Decimal.digits i.val.natAbs).map digit) := by
  induction room generalizing i with
  | zero =>
    rw [Decimal.digits_eq] at h
    cases h
  | succ room ih =>
    have hrem := natAbs_tmod_ten i.val
    have hdiv := natAbs_tdiv_ten i.val
    have hsmall : -10 < i.val.tmod 10 ∧ i.val.tmod 10 < 10 := by omega
    have hint : IntType.int.min ≤ i.val.tmod 10 ∧ i.val.tmod 10 ≤ IntType.int.max := by
      have hmin : IntType.int.min = -2147483648 := by decide
      have hmax : IntType.int.max = 2147483647 := by decide
      omega
    have hchecked := IntType.checked_eq (i.towards (tmod_ten_towards i.val))
    have hchecked' := IntType.checked_eq (i.towards (tdiv_ten_towards i.val))
    unfold convertLoop
    rw [hchecked, Option.bind_eq_bind, Option.bind_some]
    rw [IntType.checked_eq hint, Option.bind_eq_bind, Option.bind_some]
    rw [hchecked', Option.bind_eq_bind, Option.bind_some]
    rw [zero_of_digit hsmall, Option.bind_eq_bind, Option.bind_some]
    rw [Decimal.digits_eq] at h ⊢
    simp only
    rw [hrem]
    split
    . rename_i hne
      rw [if_neg (by omega)] at h ⊢
      rw [ih]
      . rw [hdiv]
        rfl
      . rw [hdiv]
        apply Nat.le_of_succ_le_succ h
    . rw [if_pos (by omega)]
      rfl

theorem length_numeral_lt {t : IntType} (value : t.Value)
    : (numeral value.val).length + 1 ≤ maxNumSize := by
  have hnumeral := Decimal.length_numeral_le (by decide) value.natAbs_lt
  apply Nat.le_trans (Nat.succ_le_succ hnumeral) (by decide)

theorem convert_eq {t : IntType} (value : t.Value)
    : convert t value = some (numeral value.val) := by
  have hdigits := Decimal.length_digits_le (by decide) value.natAbs_lt
  have hbuf
      : (if value.val < 0 then
          (Decimal.digits value.val.natAbs).map digit ++ [45]
        else
          (Decimal.digits value.val.natAbs).map digit).reverse
          =
        numeral value.val := by
    unfold numeral Decimal.magnitude
    split
    . rw [List.reverse_append]
      rfl
    . rfl
  unfold convert
  rw [convertLoop_eq (Nat.le_trans hdigits (by decide))]
  rw [Option.bind_eq_bind, Option.bind_some]
  simp only
  rw [if_pos]
  . rw [hbuf]
    rfl
  . rw [← List.length_reverse, hbuf]
    apply length_numeral_lt

theorem integer_eq {t : IntType} (value : t.Value)
    : integer t value = some (numeral value.val) := by
  have hlen : (numeral value.val).length ≤ maxNumSize := Nat.le_of_succ_le (length_numeral_lt value)
  unfold integer
  rw [IntType.checked_eq value.promoted, Option.bind_eq_bind, Option.bind_some]
  rw [convert_eq, Option.bind_eq_bind, Option.bind_some]
  rw [if_pos hlen]
  rfl

/--
The conversion of every value of every integer type ends without an overflow and without a write
behind its buffer, and gives the canonical numeral of the value.
-/
theorem convert_numeral (t : IntType) (value : t.Value)
    : ∃ buf,
        convert t value = some buf ∧ integer t value = some buf ∧
        Numeral value.val buf ∧ buf.length + 1 ≤ maxNumSize :=
  ⟨_, convert_eq value, integer_eq value, Decimal.numeral_numeral _, length_numeral_lt value⟩

example : integer .short ⟨-32768, by decide⟩ = some [45, 51, 50, 55, 54, 56] := by decide

end LogStream
end Fish
