import FishRpc.Lib.LittleEndian
import Mathlib.Data.Nat.Digits.Lemmas

/-!
This module contains decimal numerals in ASCII. `read` gives the number that a text denotes and
`Numeral v s` says that `s` is the canonical numeral of `v`, which is `numeral v`.
-/

namespace Decimal

-- '-' is 45 and '0' is 48
def minus : Byte := 45

def digit (d : Nat) : Byte := BitVec.ofNat 8 (48 + d)

def readDigit (b : Byte) : Option Nat :=
  if 48 ≤ b.toNat ∧ b.toNat ≤ 57 then some (b.toNat - 48) else none

-- the most significant digit comes first
def readDigits (s : List Byte) : Option Nat :=
  s.foldl (fun n? b => n?.bind fun n => (readDigit b).map fun d => 10 * n + d) (some 0)

def read : List Byte → Option Int
  | [] => none
  | b :: s =>
    if b = minus then
      if s = [] then none else (readDigits s).map fun n : Nat => -(n : Int)
    else
      (readDigits (b :: s)).map fun n : Nat => (n : Int)

structure Numeral (v : Int) (s : List Byte) : Prop where
  sign : s.head? = some minus ↔ v < 0
  value : read s = some v
  leading : ∀ ds, s = digit 0 :: ds ∨ s = minus :: digit 0 :: ds → ds = []

/-! ### Digits -/

-- the least significant digit comes first
def digits (n : Nat) : List Nat := if n = 0 then [0] else Nat.digits 10 n

theorem digits_eq (n : Nat)
    : digits n = n % 10 :: if n / 10 = 0 then [] else digits (n / 10) := by
  unfold digits
  by_cases hn : n = 0
  . simp [hn]
  . rw [if_neg hn]
    rw [Nat.digits_def' (by decide) (Nat.pos_of_ne_zero hn)]
    by_cases hdiv : n / 10 = 0
    . rw [if_pos hdiv, hdiv]
      simp
    . rw [if_neg hdiv, if_neg hdiv]

theorem lt_of_mem_digits {n d : Nat} (h : d ∈ digits n) : d < 10 := by
  unfold digits at h
  split at h
  . rw [List.mem_singleton] at h
    omega
  . apply Nat.digits_lt_base (by decide) h

theorem ofDigits_digits (n : Nat) : Nat.ofDigits 10 (digits n) = n := by
  unfold digits
  split
  . simp_all
  . apply Nat.ofDigits_digits

theorem length_digits_le {n k : Nat} (hk : 0 < k) (h : n < 10 ^ k) : (digits n).length ≤ k := by
  unfold digits
  split
  . apply hk
  . apply (Nat.digits_length_le_iff (by decide) n).mpr h

theorem toNat_digit {d : Nat} (h : d < 10) : (digit d).toNat = 48 + d := by
  unfold digit
  rw [BitVec.toNat_ofNat]
  omega

theorem digit_ne_minus {d : Nat} (h : d < 10) : digit d ≠ minus := by
  intro heq
  have hnat := toNat_digit h
  rw [heq] at hnat
  have hminus : minus.toNat = 45 := rfl
  omega

theorem readDigit_digit {d : Nat} (h : d < 10) : readDigit (digit d) = some d := by
  unfold readDigit
  rw [toNat_digit h]
  rw [if_pos (by omega)]
  congr 1
  omega

theorem readDigits_concat (s : List Byte) (b : Byte)
    : readDigits (s ++ [b])
        =
      (readDigits s).bind fun n => (readDigit b).map fun d => 10 * n + d := by
  simp [readDigits]

theorem readDigits_reverse {ds : List Nat} (h : ∀ d ∈ ds, d < 10)
    : readDigits (ds.map digit).reverse = some (Nat.ofDigits 10 ds) := by
  induction ds with
  | nil => rfl
  | cons d ds ih =>
    rw [List.map_cons, List.reverse_cons]
    rw [readDigits_concat]
    rw [ih fun d hd => h d (List.mem_cons_of_mem _ hd)]
    rw [readDigit_digit (h d List.mem_cons_self)]
    simp [Nat.ofDigits_cons, Nat.add_comm]

/-! ### The canonical numeral -/

def magnitude (n : Nat) : List Byte := ((digits n).map digit).reverse

def numeral (v : Int) : List Byte :=
  if v < 0 then minus :: magnitude v.natAbs else magnitude v.natAbs

theorem length_magnitude (n : Nat) : (magnitude n).length = (digits n).length := by
  simp [magnitude]

theorem readDigits_magnitude (n : Nat) : readDigits (magnitude n) = some n := by
  unfold magnitude
  rw [readDigits_reverse fun d hd => lt_of_mem_digits hd]
  rw [ofDigits_digits]

-- the most significant digit is not zero unless it is the only one
theorem magnitude_cases (n : Nat)
    : magnitude n = [digit 0] ∨
        ∃ d ds, magnitude n = digit d :: ds ∧ d < 10 ∧ d ≠ 0 := by
  by_cases hn : n = 0
  . rw [hn]
    exact Or.inl rfl
  . have hne : Nat.digits 10 n ≠ [] := Nat.digits_ne_nil_iff_ne_zero.mpr hn
    have hlast := Nat.getLast_digit_ne_zero 10 hn
    have hlt := Nat.digits_lt_base (by decide : 1 < 10) (List.getLast_mem hne)
    refine Or.inr ⟨_, ((Nat.digits 10 n).reverse.tail).map digit, ?_, hlt, hlast⟩
    unfold magnitude digits
    rw [if_neg hn]
    rw [← List.map_reverse]
    rw [← List.cons_head_tail (List.reverse_ne_nil_iff.mpr hne)]
    rw [List.map_cons, List.head_reverse]
    rfl

theorem magnitude_head (n : Nat) : ∃ d ds, magnitude n = digit d :: ds ∧ d < 10 := by
  rcases magnitude_cases n with h | ⟨d, ds, h, hd, _⟩
  . exact ⟨0, [], h, by decide⟩
  . exact ⟨d, ds, h, hd⟩

theorem magnitude_leading {n : Nat} {ds : List Byte} (h : magnitude n = digit 0 :: ds)
    : ds = [] := by
  rcases magnitude_cases n with hzero | ⟨d, ds', hds', hd, hne⟩
  . rw [hzero] at h
    exact (List.cons.inj h).2.symm
  . rw [hds'] at h
    have heq := congrArg BitVec.toNat (List.cons.inj h).1
    rw [toNat_digit hd, toNat_digit (by decide)] at heq
    omega

theorem read_magnitude (n : Nat) : read (magnitude n) = some (n : Int) := by
  rcases magnitude_head n with ⟨d, ds, hds, hd⟩
  have hread := readDigits_magnitude n
  rw [hds] at hread
  rw [hds]
  simp only [read]
  rw [if_neg (digit_ne_minus hd), hread]
  rfl

theorem read_minus (n : Nat) : read (minus :: magnitude n) = some (-(n : Int)) := by
  rcases magnitude_head n with ⟨d, ds, hds, hd⟩
  have hne : magnitude n ≠ [] := by
    rw [hds]
    apply List.cons_ne_nil
  simp only [read]
  rw [if_neg hne, readDigits_magnitude]
  rfl

theorem numeral_numeral (v : Int) : Numeral v (numeral v) := by
  rcases magnitude_head v.natAbs with ⟨d, ds, hds, hd⟩
  have hne := digit_ne_minus hd
  unfold numeral
  split
  . rename_i hv
    constructor
    . simp [hv]
    . rw [read_minus]
      congr 1
      omega
    . rintro ds' (h | h)
      . exact absurd (List.cons.inj h).1.symm (digit_ne_minus (by decide))
      . apply magnitude_leading (List.cons.inj h).2
  . rename_i hv
    constructor
    . rw [hds]
      simp [hne, hv]
    . rw [read_magnitude]
      congr 1
      omega
    . rintro ds' (h | h)
      . apply magnitude_leading h
      . rw [hds] at h
        exact absurd (List.cons.inj h).1 hne

theorem length_numeral_le {v : Int} {k : Nat} (hk : 0 < k) (h : v.natAbs < 10 ^ k)
    : (numeral v).length ≤ k + 1 := by
  have hle := length_digits_le hk h
  rw [← length_magnitude] at hle
  unfold numeral
  split
  . rw [List.length_cons]
    omega
  . omega

/-! ### Numerals of a fixed width -/

def fixed : Nat → Nat → List Byte
  | 0, _ => []
  | k + 1, n => fixed k (n / 10) ++ [digit (n % 10)]

theorem length_fixed (k n : Nat) : (fixed k n).length = k := by
  induction k generalizing n with
  | zero => rfl
  | succ k ih => rw [fixed, List.length_append, ih, List.length_singleton]

theorem fixed_zero (k : Nat) : fixed k 0 = List.replicate k (digit 0) := by
  induction k with
  | zero => rfl
  | succ k ih => rw [fixed, Nat.zero_div, ih, List.replicate_succ']

theorem magnitude_eq (n : Nat)
    : magnitude n = (if n / 10 = 0 then [] else magnitude (n / 10)) ++ [digit (n % 10)] := by
  unfold magnitude
  rw [digits_eq, List.map_cons, List.reverse_cons]
  split <;> rfl

-- zeros in front of the canonical numeral
theorem replicate_append_magnitude {k n : Nat} (hk : 0 < k) (h : n < 10 ^ k)
    : List.replicate (k - (magnitude n).length) (digit 0) ++ magnitude n = fixed k n := by
  induction k generalizing n with
  | zero => cases hk
  | succ k ih =>
    rw [magnitude_eq, fixed]
    split
    . rename_i hdiv
      rw [hdiv, fixed_zero]
      rfl
    . rename_i hdiv
      have hlt : n / 10 < 10 ^ k := by
        rw [Nat.pow_succ] at h
        omega
      have hpos : 0 < k := by
        apply Nat.pos_of_ne_zero
        rintro rfl
        exact hdiv (Nat.lt_one_iff.mp hlt)
      rw [← ih hpos hlt, ← List.append_assoc, List.length_append, List.length_singleton]
      rw [Nat.add_sub_add_right]

theorem digit_lt_iff {d e : Nat} (hd : d < 10) (he : e < 10) : digit d < digit e ↔ d < e := by
  rw [BitVec.lt_def, toNat_digit hd, toNat_digit he]
  omega

theorem digit_inj {d e : Nat} (hd : d < 10) (he : e < 10) : digit d = digit e ↔ d = e := by
  rw [← BitVec.toNat_inj, toNat_digit hd, toNat_digit he]
  omega

theorem append_lt_append_iff {a a' b b' : List Byte} (h : a.length = a'.length)
    : a ++ b < a' ++ b' ↔ a < a' ∨ a = a' ∧ b < b' := by
  induction a generalizing a' with
  | nil =>
    cases a' with
    | nil => simp
    | cons y a' => cases h
  | cons x a ih =>
    cases a' with
    | nil => cases h
    | cons y a' =>
      rw [List.cons_append, List.cons_append, List.cons_lt_cons_iff, List.cons_lt_cons_iff]
      rw [ih (Nat.succ.inj h), List.cons.injEq]
      tauto

theorem fixed_inj {k n m : Nat} (hn : n < 10 ^ k) (hm : m < 10 ^ k)
    : fixed k n = fixed k m ↔ n = m := by
  refine ⟨?_, fun h => h ▸ rfl⟩
  induction k generalizing n m with
  | zero => omega
  | succ k ih =>
    intro h
    rw [Nat.pow_succ] at hn hm
    rcases List.append_inj' h rfl with ⟨hinit, hlast⟩
    have hdiv := ih (by omega) (by omega) hinit
    have hrem := (digit_inj (Nat.mod_lt _ (by decide)) (Nat.mod_lt _ (by decide))).mp
      (List.singleton_inj.mp hlast)
    omega

/--
Numerals of the same width are ordered like their numbers.
-/
theorem fixed_lt_iff {k n m : Nat} (hn : n < 10 ^ k) (hm : m < 10 ^ k)
    : fixed k n < fixed k m ↔ n < m := by
  induction k generalizing n m with
  | zero =>
    have hirrefl : ¬([] : List Byte) < [] := List.not_lt_nil []
    simp only [fixed, hirrefl, false_iff]
    omega
  | succ k ih =>
    rw [Nat.pow_succ] at hn hm
    have hdiv : fixed k (n / 10) < fixed k (m / 10) ↔ n / 10 < m / 10 :=
      ih (by omega) (by omega)
    have heq : fixed k (n / 10) = fixed k (m / 10) ↔ n / 10 = m / 10 :=
      fixed_inj (by omega) (by omega)
    have hlast : [digit (n % 10)] < [digit (m % 10)] ↔ n % 10 < m % 10 := by
      rw [List.cons_lt_cons_iff]
      rw [digit_lt_iff (Nat.mod_lt _ (by decide)) (Nat.mod_lt _ (by decide))]
      simp
    rw [fixed, fixed, append_lt_append_iff (by rw [length_fixed, length_fixed]), hdiv, heq, hlast]
    omega

end Decimal
