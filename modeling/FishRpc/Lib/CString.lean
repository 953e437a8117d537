import FishRpc.Lib.Decimal
import Mathlib.Data.List.TakeWhile

/-!
This module contains what functions of the C library see of a text: the bytes in front of the first
zero, and the number that `strtol` reads from them. A plain numeral is read as its value. The first
separator of a text is found behind what does not contain it.
-/

namespace CString

def cStr (s : List Byte) : List Byte := s.takeWhile fun b => b != 0

-- in the C locale
def isSpace (b : Byte) : Bool := b.toNat = 32 ∨ 9 ≤ b.toNat ∧ b.toNat ≤ 13

def isDigit (b : Byte) : Bool := 48 ≤ b.toNat ∧ b.toNat ≤ 57

def plus : Byte := 43

def sign : List Byte → Bool × List Byte
  | [] => (false, [])
  | b :: s =>
    if b = Decimal.minus then (true, s) else if b = plus then (false, s) else (false, b :: s)

-- of 64 bits, base 10; a value out of range is replaced by the nearest bound
def strtol (s : List Byte) : Int :=
  let (negative, s) := sign (s.dropWhile isSpace)
  let n : Int := (Decimal.readDigits (s.takeWhile isDigit)).getD 0
  let v := if negative then -n else n
  max (-2 ^ 63) (min v (2 ^ 63 - 1))

def atoi (s : List Byte) : Int := (BitVec.ofInt 32 (strtol s)).toInt

theorem takeWhile_append {c : Byte} {s : List Byte} (h : c ∉ s) (rest : List Byte)
    : (s ++ rest).takeWhile (fun b => b != c) = s ++ rest.takeWhile fun b => b != c := by
  apply List.takeWhile_append_of_pos
  intro b hb
  rw [bne_iff_ne]
  exact fun heq => h (heq ▸ hb)

theorem takeWhile_eq_self {c : Byte} {s : List Byte} (h : c ∉ s)
    : s.takeWhile (fun b => b != c) = s := by
  have htake := takeWhile_append h []
  rw [List.takeWhile_nil, List.append_nil] at htake
  exact htake

theorem takeWhile_append_cons {c : Byte} {s : List Byte} (h : c ∉ s) (rest : List Byte)
    : (s ++ c :: rest).takeWhile (fun b => b != c) = s := by
  rw [takeWhile_append h]
  simp

theorem cStr_eq_self {s : List Byte} (h : 0 ∉ s) : cStr s = s := takeWhile_eq_self h

theorem cStr_append_zeros {s : List Byte} (h : 0 ∉ s) (k : Nat)
    : cStr (s ++ List.replicate k 0) = s := by
  unfold cStr
  cases k with
  | zero =>
    rw [List.replicate_zero, List.append_nil]
    apply takeWhile_eq_self h
  | succ k =>
    rw [List.replicate_succ]
    apply takeWhile_append_cons h

theorem findIdx_of_notMem {c : Byte} {s : List Byte} (h : c ∉ s)
    : s.findIdx (fun b => b == c) = s.length := by
  apply List.findIdx_eq_length.mpr
  intro b hb
  rw [beq_eq_false_iff_ne]
  exact fun heq => h (heq ▸ hb)

theorem findIdx_append_cons {c : Byte} {s : List Byte} (h : c ∉ s) (rest : List Byte)
    : (s ++ c :: rest).findIdx (fun b => b == c) = s.length := by
  rw [List.findIdx_append, findIdx_of_notMem h]
  rw [if_neg (Nat.lt_irrefl _)]
  simp [List.findIdx_cons]

/-! ### Plain numerals -/

theorem isDigit_of_readDigit {b : Byte} {d : Nat} (h : Decimal.readDigit b = some d)
    : isDigit b = true := by
  unfold Decimal.readDigit at h
  rw [Option.ite_none_right_eq_some] at h
  unfold isDigit
  simpa using h.1

theorem all_isDigit_of_readDigits {s : List Byte} {n : Nat} (h : Decimal.readDigits s = some n)
    : ∀ b ∈ s, isDigit b = true := by
  induction s using List.reverseRecOn generalizing n with
  | nil => simp
  | append_singleton s b ih =>
    rw [Decimal.readDigits_concat] at h
    rcases Option.bind_eq_some_iff.mp h with ⟨m, hm, hb⟩
    rcases Option.map_eq_some_iff.mp hb with ⟨d, hd, _⟩
    intro c hc
    rcases List.mem_append.mp hc with hinit | hlast
    . exact ih hm c hinit
    . rw [List.mem_singleton.mp hlast]
      exact isDigit_of_readDigit hd

theorem not_isSpace_of_isDigit {b : Byte} (h : isDigit b = true) : isSpace b = false := by
  unfold isDigit at h
  unfold isSpace
  simp only [decide_eq_true_eq, decide_eq_false_iff_not] at h ⊢
  omega

theorem sign_of_isDigit {b : Byte} (h : isDigit b = true) (s : List Byte)
    : sign (b :: s) = (false, b :: s) := by
  unfold isDigit at h
  simp only [decide_eq_true_eq] at h
  have hminus : b ≠ Decimal.minus := by
    rintro rfl
    exact absurd h.1 (by decide)
  have hplus : b ≠ plus := by
    rintro rfl
    exact absurd h.1 (by decide)
  simp only [sign, if_neg hminus, if_neg hplus]

theorem zero_notMem_of_readDigits {s : List Byte} {n : Nat} (h : Decimal.readDigits s = some n)
    : 0 ∉ s := by
  intro hmem
  exact absurd (all_isDigit_of_readDigits h 0 hmem) (by decide)

theorem strtol_of_readDigits {s : List Byte} {n : Nat} (h : Decimal.readDigits s = some n)
    (hn : n < 2 ^ 63) : strtol s = n := by
  have hall := all_isDigit_of_readDigits h
  have hsign : sign (s.dropWhile isSpace) = (false, s) := by
    cases s with
    | nil => rfl
    | cons b s =>
      have hb := hall b List.mem_cons_self
      rw [List.dropWhile_cons_of_neg (by simp [not_isSpace_of_isDigit hb])]
      apply sign_of_isDigit hb
  unfold strtol
  rw [hsign]
  simp only
  rw [List.takeWhile_eq_self_iff.mpr hall, h]
  simp only [Option.getD_some, Bool.false_eq_true, if_false]
  omega

theorem atoi_of_readDigits {s : List Byte} {n : Nat} (h : Decimal.readDigits s = some n)
    (hn : n < 2 ^ 31) : atoi s = n := by
  unfold atoi
  rw [strtol_of_readDigits h (by omega)]
  rw [BitVec.toInt_ofInt, Int.bmod_def]
  split <;> omega

end CString
