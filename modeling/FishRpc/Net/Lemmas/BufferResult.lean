import FishRpc.Net.Lemmas.Buffer

/-!
This module contains what a result that need not be positive does to the indices of a buffer when it
is passed on as the number of bytes to erase.
-/

namespace Fish
namespace Buffer

-- the indices are values of an `int`
structure Ints (b : Buffer) : Prop where
  readIndex : -2 ^ 31 ≤ b.readIndex ∧ b.readIndex < 2 ^ 31
  writeIndex : -2 ^ 31 ≤ b.writeIndex ∧ b.writeIndex < 2 ^ 31

structure Unmoved (b b' : Buffer) : Prop where
  readIndex : b'.readIndex = b.readIndex
  writeIndex : b'.writeIndex = b.writeIndex

-- the read index goes on by `n` unread bytes, a drained buffer starts again at 0
structure Erased (b b' : Buffer) (n : Int) : Prop where
  fits : b.readIndex + n ≤ b.writeIndex
  indices : (b'.readIndex = b.readIndex + n ∧ b'.writeIndex = b.writeIndex) ∨
    (b.readIndex + n = b.writeIndex ∧ b'.readIndex = 0 ∧ b'.writeIndex = 0)

variable {b : Buffer} {n : Int}

theorem zero_int : -2 ^ 31 ≤ (0 : Int) ∧ (0 : Int) < 2 ^ 31 := by decide

theorem Valid.writeIndex_int (h : b.Valid) : -2 ^ 31 ≤ b.writeIndex ∧ b.writeIndex < 2 ^ 31 := by
  have := h.nonneg
  have := h.le
  have := h.lt
  have := h.small
  omega

theorem Ints.new (size : Nat) (heap : Int → Byte) : (new size heap).Ints :=
  ⟨zero_int, zero_int⟩

theorem eraseData_intToSize (b : Buffer) (hlower : -2 ^ 31 ≤ n) (hupper : n < 2 ^ 31)
    : b.eraseData (intToSize n)
        =
      if b.readIndex + n = b.writeIndex then
        { b with readIndex := 0, writeIndex := 0 }
      else
        { b with readIndex := sizeToInt (b.readIndex + n) } := by
  have hn : sizeToInt (intToSize n) = n := by
    have hadd := sizeToInt_add_intToSize 0 n
    rw [Int.zero_add, Int.zero_add] at hadd
    rw [hadd]
    apply sizeToInt_of_int hlower hupper
  unfold eraseData
  rw [hn]
  rw [sizeToInt_add_intToSize]

theorem Ints.eraseData (h : b.Ints) (len : Nat) : (b.eraseData len).Ints := by
  unfold Buffer.eraseData
  split
  . exact ⟨zero_int, zero_int⟩
  . exact ⟨sizeToInt_int _, h.writeIndex⟩

theorem Ints.input (h : b.Ints) (view : List Byte) (heap : Int → Byte)
    : (b.input view heap).Ints := by
  have hread : (b.input view heap).readIndex
      = if view.length > intToSize (b.size - b.writeIndex) then 0 else b.readIndex := by
    unfold Buffer.input
    split
    . rfl
    . rfl
  have hwrite : ∃ i, (b.input view heap).writeIndex = sizeToInt i := ⟨_, rfl⟩
  constructor
  . rw [hread]
    split
    . exact zero_int
    . exact h.readIndex
  . rcases hwrite with ⟨i, hi⟩
    rw [hi]
    apply sizeToInt_int

/--
An erase by a result that is not positive leaves the indices where they are only if the result is 0.
-/
theorem Ints.unmoved_iff (h : b.Ints) (hlower : -2 ^ 31 ≤ n) (hn : n ≤ 0)
    : b.Unmoved (b.eraseData (intToSize n))
        ↔
      n = 0 ∧ (b.readIndex = b.writeIndex → b.readIndex = 0) := by
  have hsame := sizeToInt_add_eq_iff h.readIndex hlower (show n < 2 ^ 31 by omega)
  rw [eraseData_intToSize b hlower (by omega)]
  split
  . constructor
    . rintro ⟨hread, hwrite⟩
      simp only at hread hwrite
      omega
    . rintro ⟨hzero, hdrained⟩
      constructor
      . simp only
        omega
      . simp only
        omega
  . constructor
    . rintro ⟨hread, _⟩
      have hzero := hsame.mp hread
      refine ⟨hzero, ?_⟩
      omega
    . rintro ⟨hzero, _⟩
      exact ⟨hsame.mpr hzero, rfl⟩

theorem Ints.erased_iff (h : b.Ints) (hn : 0 < n) (hupper : n < 2 ^ 31)
    : b.Erased (b.eraseData (intToSize n)) n ↔ b.readIndex + n ≤ b.writeIndex := by
  constructor
  . exact Erased.fits
  . intro hfits
    have hread := h.readIndex
    have hwrite := h.writeIndex
    refine ⟨hfits, ?_⟩
    rw [eraseData_intToSize b (by omega) hupper]
    split
    . exact Or.inr ⟨by assumption, rfl, rfl⟩
    . refine Or.inl ⟨?_, rfl⟩
      apply sizeToInt_of_int
      . omega
      . omega

end Buffer
end Fish
