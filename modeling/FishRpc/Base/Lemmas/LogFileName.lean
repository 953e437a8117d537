import FishRpc.Base.Impl.LogFile

/-!
This module contains the numbers in the names of log files. The digits are written the least
significant one first and are not reversed, and still different numbers have different texts.
-/

namespace Fish
namespace LogFile

open CString (cStr)

theorem numLoop_zero (room : Nat) : numLoop room 0 = some [] := by
  cases room <;> rfl

theorem numLoop_succ {temp : Int} (h : temp ≠ 0) (room : Nat)
    : numLoop (room + 1) temp
        =
      (numLoop room (temp.tdiv 10)).map fun buf => BitVec.ofInt 8 (temp.tmod 10 + 48) :: buf :=
  if_neg h

theorem div_ten_lt {n k : Nat} (h : n < 10 ^ (k + 1)) : n / 10 < 10 ^ k := by
  apply Nat.div_lt_of_lt_mul
  rw [Nat.pow_succ, Nat.mul_comm] at h
  exact h

-- a number below `10 ^ k` has no more than `k` digits
theorem numLoop_spec (room k : Nat) (temp : Int) (hk : k ≤ room) (h : temp.natAbs < 10 ^ k)
    : ∃ digits, numLoop room temp = some digits ∧ digits.length ≤ k := by
  induction k generalizing room temp with
  | zero =>
    have hzero : temp = 0 := by omega
    exact ⟨[], by rw [hzero, numLoop_zero], Nat.le_refl _⟩
  | succ k ih =>
    by_cases hzero : temp = 0
    . exact ⟨[], by rw [hzero, numLoop_zero], Nat.zero_le _⟩
    . obtain ⟨room, rfl⟩ : ∃ r, room = r + 1 := ⟨room - 1, by omega⟩
      have hdiv : (temp.tdiv 10).natAbs < 10 ^ k := by
        rw [Int.natAbs_tdiv]
        apply div_ten_lt h
      rcases ih room (temp.tdiv 10) (by omega) hdiv with ⟨digits, hdigits, hlen⟩
      refine ⟨BitVec.ofInt 8 (temp.tmod 10 + 48) :: digits, ?_, ?_⟩
      . rw [numLoop_succ hzero, hdigits]
        rfl
      . rw [List.length_cons]
        omega

theorem numLoop_natCast (room n : Nat) (h : n < 10 ^ room)
    : numLoop room n = some ((Nat.digits 10 n).map Decimal.digit) := by
  induction room generalizing n with
  | zero =>
    have hzero : n = 0 := by omega
    subst hzero
    rfl
  | succ room ih =>
    by_cases hzero : n = 0
    . subst hzero
      rfl
    . have htdiv : (n : Int).tdiv 10 = (n / 10 : Nat) := rfl
      have htmod : (n : Int).tmod 10 = (n % 10 : Nat) := rfl
      rw [numLoop_succ (by omega), htdiv, ih _ (div_ten_lt h), htmod]
      rw [Nat.digits_def' (by decide) (Nat.pos_of_ne_zero hzero)]
      simp only [Option.map_some, List.map_cons, Option.some.injEq, List.cons.injEq, and_true]
      unfold Decimal.digit
      rw [Nat.add_comm, ← BitVec.ofInt_natCast]
      rfl

theorem length_extension : extension.length = 4 := rfl

-- `_`, the digits, ".log" and zeros
theorem getNum_spec {fileCount : Int} (h : fileCount.natAbs < 10 ^ 10)
    : ∃ digits,
        numLoop (sizeofBuf - 1) fileCount = some digits ∧ digits.length ≤ 10 ∧
        getNum fileCount
          =
        some (underscore :: (digits ++ extension) ++ List.replicate (11 - digits.length) 0) := by
  rcases numLoop_spec (sizeofBuf - 1) 10 fileCount (by decide) h with ⟨digits, hdigits, hlen⟩
  refine ⟨digits, hdigits, hlen, ?_⟩
  have htext : (underscore :: (digits ++ extension)).length = digits.length + 5 := by
    rw [List.length_cons, List.length_append, length_extension]
  have hfit : (underscore :: (digits ++ extension)).length ≤ sizeofBuf := by
    rw [htext]
    unfold sizeofBuf
    omega
  have hrest : sizeofBuf - (digits.length + 5) = 11 - digits.length := by
    unfold sizeofBuf
    omega
  unfold getNum
  rw [hdigits]
  simp only [Option.bind_eq_bind, Option.bind_some]
  rw [if_pos hfit, htext, hrest]
  rfl

theorem natAbs_toInt_lt (fileCount : BitVec 32) : fileCount.toInt.natAbs < 10 ^ 10 := by
  have hlt := fileCount.toInt_lt
  have hle := fileCount.le_toInt
  omega

theorem fileName_isSome (tm : Tm) (fileCount : BitVec 32)
    : ∃ name, fileName tm fileCount.toInt = some name := by
  rcases getNum_spec (natAbs_toInt_lt fileCount) with ⟨digits, _, hlen, hbuf⟩
  unfold fileName
  rw [hbuf]
  simp only [Option.bind_eq_bind, Option.bind_some]
  rw [if_pos]
  . exact ⟨_, rfl⟩
  . apply List.mem_append_right
    rw [List.mem_replicate]
    exact ⟨by omega, rfl⟩

/-! ### Positive numbers -/

def number (n : Nat) : List Byte := (Nat.digits 10 n).map Decimal.digit

theorem digits_lt {n d : Nat} (h : d ∈ Nat.digits 10 n) : d < 10 :=
  Nat.digits_lt_base (by decide) h

theorem number_inj {a b : Nat} (h : number a = number b) : a = b := by
  have hread (n : Nat) : Decimal.readDigits (number n).reverse = some n := by
    unfold number
    rw [Decimal.readDigits_reverse fun d hd => digits_lt hd]
    rw [Nat.ofDigits_digits]
  have ha := hread a
  rw [h, hread b] at ha
  exact (Option.some.inj ha).symm

theorem zero_notMem_number (n : Nat) : 0 ∉ number n := by
  intro hmem
  rcases List.mem_map.mp hmem with ⟨d, hd, hzero⟩
  have hnat := Decimal.toNat_digit (digits_lt hd)
  rw [hzero] at hnat
  have hzero : (0 : Byte).toNat = 0 := rfl
  omega

def suffix (n : Nat) : List Byte := underscore :: (number n ++ extension)

theorem zero_notMem_suffix (n : Nat) : 0 ∉ suffix n := by
  have hnumber := zero_notMem_number n
  have hunderscore : 0 ≠ underscore := by decide
  have hextension : 0 ∉ extension := by decide
  unfold suffix
  simp only [List.mem_cons, List.mem_append, not_or]
  exact ⟨hunderscore, hnumber, hextension⟩

theorem suffix_inj {a b : Nat} (h : suffix a = suffix b) : a = b := by
  apply number_inj
  apply List.append_cancel_right (List.cons.inj h).2

/--
`getNum` writes the number and its terminating zero within the array.
-/
theorem getNum_natCast {n : Nat} (h : n < 2 ^ 31)
    : ∃ buf,
        getNum n = some buf ∧ buf.length = sizeofBuf ∧ 0 ∈ buf ∧ cStr buf = suffix n := by
  have hlt : (n : Int).natAbs < 10 ^ 10 := by omega
  rcases getNum_spec hlt with ⟨digits, hdigits, hlen, hbuf⟩
  rw [numLoop_natCast _ _ (by unfold sizeofBuf; omega)] at hdigits
  cases hdigits
  refine ⟨_, hbuf, ?_, ?_, ?_⟩
  . simp only [List.length_append, List.length_cons, List.length_replicate,
      length_extension] at hlen ⊢
    unfold sizeofBuf
    omega
  . apply List.mem_append_right
    rw [List.mem_replicate]
    exact ⟨by omega, rfl⟩
  . exact CString.cStr_append_zeros (zero_notMem_suffix n) _

/-! ### The time -/

theorem notMem_pad {b c : Byte} {width : Nat} {text : List Byte} (hne : b ≠ c) (h : b ∉ text)
    : b ∉ pad c width text := by
  unfold pad
  rw [List.mem_append, not_or]
  refine ⟨?_, h⟩
  intro hmem
  exact hne (List.mem_replicate.mp hmem).2

theorem underscore_notMem_numeral (v : Int) : underscore ∉ Decimal.numeral v := by
  have hmagnitude (n : Nat) : underscore ∉ Decimal.magnitude n := by
    intro hmem
    unfold Decimal.magnitude at hmem
    rw [List.mem_reverse] at hmem
    rcases List.mem_map.mp hmem with ⟨d, hd, heq⟩
    have hnat := Decimal.toNat_digit (Decimal.lt_of_mem_digits hd)
    have hlt := Decimal.lt_of_mem_digits hd
    have hunderscore : underscore.toNat = 95 := rfl
    rw [heq] at hnat
    omega
  have hminus : underscore ≠ Decimal.minus := by decide
  unfold Decimal.numeral
  split
  . rw [List.mem_cons, not_or]
    exact ⟨hminus, hmagnitude _⟩
  . apply hmagnitude

theorem underscore_notMem_toLogFileName (tm : Tm) : underscore ∉ toLogFileName tm := by
  have htwo (v : Int) : underscore ∉ hyphen :: pad 48 2 (Decimal.numeral v) := by
    rw [List.mem_cons, not_or]
    exact ⟨by decide, notMem_pad (by decide) (underscore_notMem_numeral v)⟩
  have hyear : underscore ∉ pad 32 4 (Decimal.numeral (tm.year + 1900)) :=
    notMem_pad (by decide) (underscore_notMem_numeral _)
  intro hmem
  have htext := List.mem_of_mem_take hmem
  simp only [List.mem_append] at htext
  rcases htext with (((h | h) | h) | h) | h
  . exact hyear h
  . exact htwo _ h
  . exact htwo _ h
  . exact htwo _ h
  . exact htwo _ h

/--
Files with different numbers have different names, in the same minute and in any two.
-/
theorem fileName_inj {tm tm' : Tm} {a b : Nat} (ha : a < 2 ^ 31) (hb : b < 2 ^ 31)
    {name : List Byte} (hname : fileName tm a = some name) (hname' : fileName tm' b = some name)
    : a = b := by
  have heq {tm : Tm} {n : Nat} (hn : n < 2 ^ 31) (hname : fileName tm n = some name)
      : name = toLogFileName tm ++ suffix n := by
    rcases getNum_natCast hn with ⟨buf, hbuf, _, hzero, hsuffix⟩
    unfold fileName at hname
    rw [hbuf] at hname
    simp only [Option.bind_eq_bind, Option.bind_some] at hname
    rw [if_pos hzero] at hname
    rw [← Option.some.inj hname, hsuffix]
  have hsplit := heq ha hname
  rw [heq hb hname'] at hsplit
  have hlen := congrArg (List.findIdx fun c => c == underscore) hsplit
  unfold suffix at hlen
  rw [CString.findIdx_append_cons (underscore_notMem_toLogFileName tm)] at hlen
  rw [CString.findIdx_append_cons (underscore_notMem_toLogFileName tm')] at hlen
  exact (suffix_inj (List.append_inj hsplit hlen).2).symm

end LogFile
end Fish
