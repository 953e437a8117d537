import FishRpc.Net.Impl.Buffer
import Mathlib.Data.List.GetD

/-!
This module contains the view of a buffer as a queue of the bytes that have been put in and not yet
erased.
-/

namespace Fish
namespace Buffer

def unread (b : Buffer) : List Byte :=
  b.read b.disRead

structure Bounded (b : Buffer) : Prop where
  nonneg : 0 ≤ b.readIndex
  le : b.readIndex ≤ b.writeIndex
  fits : b.writeIndex ≤ b.size
  small : b.size < 2 ^ 31

-- the kernel never gets the last byte of a receive buffer
structure Valid (b : Buffer) : Prop where
  nonneg : 0 ≤ b.readIndex
  le : b.readIndex ≤ b.writeIndex
  lt : b.writeIndex < b.size
  small : b.size < 2 ^ 31

theorem Valid.bounded {b : Buffer} (h : Valid b) : Bounded b :=
  ⟨h.nonneg, h.le, Int.le_of_lt h.lt, h.small⟩

theorem bounded_new {size : Nat} (heap : Int → Byte) (hsmall : size < 2 ^ 31)
    : Bounded (new size heap) where
  nonneg := Int.le_refl 0
  le := Int.le_refl 0
  fits := Int.natCast_nonneg size
  small := hsmall

theorem valid_new {size : Nat} (heap : Int → Byte) (hpos : 0 < size) (hsmall : size < 2 ^ 31)
    : Valid (new size heap) where
  nonneg := Int.le_refl 0
  le := Int.le_refl 0
  lt := Int.ofNat_lt.mpr hpos
  small := hsmall

theorem intToSize_eq {n : Int} (h : 0 ≤ n) (hlt : n < 2 ^ 31) : (intToSize n : Int) = n := by
  unfold intToSize
  omega

theorem sizeToInt_eq {n : Int} (h : 0 ≤ n) (hlt : n < 2 ^ 31) : sizeToInt n = n := by
  apply Int.bmod_eq_of_le
  . omega
  . omega

theorem Bounded.disRead_size {b : Buffer} (h : Bounded b)
    : (b.disRead.size : Int) = b.writeIndex - b.readIndex := by
  have := h.nonneg
  have := h.le
  have := h.fits
  have := h.small
  apply intToSize_eq (by omega) (by omega)

theorem Bounded.free {b : Buffer} (h : Bounded b)
    : (intToSize (b.size - b.writeIndex) : Int) = b.size - b.writeIndex := by
  have := h.nonneg
  have := h.le
  have := h.fits
  have := h.small
  apply intToSize_eq (by omega) (by omega)

theorem Valid.disWrite_size {b : Buffer} (h : Valid b)
    : (b.disWrite.size : Int) = b.size - b.writeIndex - 1 := by
  have := h.nonneg
  have := h.le
  have := h.lt
  have := h.small
  apply intToSize_eq (by omega) (by omega)

theorem length_unread (b : Buffer) : b.unread.length = b.disRead.size := by
  simp [unread, read]

theorem Bounded.length_unread_lt {b : Buffer} (h : Bounded b) : b.unread.length < 2 ^ 31 := by
  have := h.disRead_size
  have := h.nonneg
  have := h.fits
  have := h.small
  rw [length_unread]
  omega

theorem getElem_unread (b : Buffer) {i : Nat} (hi : i < b.unread.length)
    : b.unread[i] = b.data (b.readIndex + i) := by
  simp [unread, read, disRead]

theorem read_unread (b : Buffer) {len : Nat} (hlen : len ≤ b.unread.length)
    : b.read { offset := b.readIndex, size := len } = b.unread.take len := by
  apply List.ext_getElem
  . rw [List.length_take_of_le hlen]
    simp [read]
  . intro i hi hi'
    rw [List.getElem_take]
    rw [getElem_unread]
    simp [read]

/-! ### Putting bytes in -/

-- bytes are written behind the unread ones and counted as unread
def push (b : Buffer) (bytes : List Byte) : Buffer :=
  (b.write b.writeIndex bytes).already bytes.length

theorem Bounded.push_writeIndex {b : Buffer} (h : Bounded b) {bytes : List Byte}
    (hfit : b.writeIndex + bytes.length ≤ b.size)
    : (b.push bytes).writeIndex = b.writeIndex + bytes.length := by
  have := h.nonneg
  have := h.le
  have := h.small
  show sizeToInt (b.writeIndex + bytes.length) = _
  apply sizeToInt_eq (by omega) (by omega)

theorem Bounded.push {b : Buffer} (h : Bounded b) {bytes : List Byte}
    (hfit : b.writeIndex + bytes.length ≤ b.size) : Bounded (b.push bytes) := by
  have hwrite := h.push_writeIndex hfit
  have := h.le
  exact
    { nonneg := h.nonneg
      le := by
        rw [hwrite]
        show b.readIndex ≤ _
        omega
      fits := by
        rw [hwrite]
        exact hfit
      small := h.small }

theorem unread_push {b : Buffer} (h : Bounded b) {bytes : List Byte}
    (hfit : b.writeIndex + bytes.length ≤ b.size) : (b.push bytes).unread = b.unread ++ bytes := by
  have hold := h.disRead_size
  have hnew := (h.push hfit).disRead_size
  rw [h.push_writeIndex hfit] at hnew
  have hread : (b.push bytes).readIndex = b.readIndex := rfl
  rw [hread] at hnew
  have hlen := length_unread b
  apply List.ext_getElem
  . rw [length_unread]
    rw [List.length_append]
    rw [length_unread]
    omega
  . intro i hi hi'
    rw [length_unread] at hi
    rw [getElem_unread]
    rw [hread]
    show (if b.writeIndex ≤ b.readIndex + i ∧ b.readIndex + i < b.writeIndex + bytes.length then
      bytes.getD (b.readIndex + i - b.writeIndex).toNat 0 else b.data (b.readIndex + i)) = _
    by_cases hleft : i < b.unread.length
    . rw [if_neg (by omega)]
      rw [List.getElem_append_left hleft]
      rw [getElem_unread]
    . rw [if_pos (by omega)]
      rw [List.getElem_append_right (by omega)]
      have hidx : (b.readIndex + i - b.writeIndex).toNat = i - b.unread.length := by omega
      rw [hidx]
      rw [List.getD_eq_getElem _ _ (by omega)]

theorem Valid.room {b : Buffer} (h : Valid b) {chunk : List Byte}
    (hfit : chunk.length ≤ b.disWrite.size) : b.writeIndex + chunk.length < b.size := by
  have := h.disWrite_size
  omega

theorem Valid.receive {b : Buffer} (h : Valid b) {chunk : List Byte}
    (hfit : chunk.length ≤ b.disWrite.size) : Valid (b.receive chunk) := by
  have hroom := h.room hfit
  have hpush : Bounded (b.push chunk) := h.bounded.push (Int.le_of_lt hroom)
  refine ⟨hpush.nonneg, hpush.le, ?_, hpush.small⟩
  show (b.push chunk).writeIndex < b.size
  rw [h.bounded.push_writeIndex (Int.le_of_lt hroom)]
  exact hroom

theorem unread_receive {b : Buffer} (h : Valid b) {chunk : List Byte}
    (hfit : chunk.length ≤ b.disWrite.size) : (b.receive chunk).unread = b.unread ++ chunk :=
  unread_push h.bounded (Int.le_of_lt (h.room hfit))

theorem input_eq {b : Buffer} {view : List Byte} (heap : Int → Byte)
    (hfit : view.length ≤ intToSize (b.size - b.writeIndex)) : b.input view heap = b.push view := by
  unfold input
  rw [if_neg (by omega)]
  rfl

/-! ### Erasing -/

theorem eraseData_eq {b : Buffer} (h : Bounded b) {len : Nat} (hlen : len ≤ b.unread.length)
    : b.eraseData len
        =
      if b.readIndex + len = b.writeIndex then
        { b with readIndex := 0, writeIndex := 0 }
      else
        { b with readIndex := b.readIndex + len } := by
  have hsize := h.disRead_size
  have := h.fits
  have := h.nonneg
  have := h.small
  rw [length_unread] at hlen
  unfold eraseData
  rw [sizeToInt_of_lt (by omega)]
  rw [sizeToInt_eq (by omega) (by omega)]

theorem Bounded.eraseFits {b : Buffer} (h : Bounded b) {len : Nat} (hlen : len ≤ b.unread.length)
    : b.EraseFits len := by
  have hsize := h.disRead_size
  have hlt := h.length_unread_lt
  have hunread := length_unread b
  unfold EraseFits
  rw [sizeToInt_of_lt (by omega)]
  omega

theorem Bounded.eraseData {b : Buffer} (h : Bounded b) {len : Nat} (hlen : len ≤ b.unread.length)
    : Bounded (b.eraseData len) := by
  have hsize := h.disRead_size
  have := h.fits
  have := h.nonneg
  rw [eraseData_eq h hlen]
  rw [length_unread] at hlen
  split
  . refine ⟨Int.le_refl 0, Int.le_refl 0, ?_, h.small⟩
    simp only
    omega
  . refine ⟨?_, ?_, h.fits, h.small⟩
    . simp only
      omega
    . simp only
      omega

theorem Valid.eraseData {b : Buffer} (h : Valid b) {len : Nat} (hlen : len ≤ b.unread.length)
    : Valid (b.eraseData len) := by
  have hbounded := h.bounded.eraseData hlen
  have := h.lt
  have := h.nonneg
  have := h.le
  refine ⟨hbounded.nonneg, hbounded.le, ?_, hbounded.small⟩
  rw [eraseData_eq h.bounded hlen]
  split
  . simp only
    omega
  . apply h.lt

theorem unread_eraseData {b : Buffer} (h : Bounded b) {len : Nat} (hlen : len ≤ b.unread.length)
    : (b.eraseData len).unread = b.unread.drop len := by
  have hold := h.disRead_size
  have hnew := (h.eraseData hlen).disRead_size
  have hold' := length_unread b
  rw [eraseData_eq h hlen] at hnew ⊢
  by_cases hall : b.readIndex + len = b.writeIndex
  . rw [if_pos hall]
    have hnil : b.unread.drop len = [] := List.drop_eq_nil_of_le (by omega)
    rw [hnil]
    rfl
  . rw [if_neg hall] at hnew ⊢
    apply List.ext_getElem
    . rw [length_unread]
      rw [List.length_drop]
      simp only at hnew
      omega
    . intro i hi hi'
      rw [getElem_unread]
      rw [List.getElem_drop]
      rw [getElem_unread]
      simp only [Int.natCast_add, Int.add_assoc]

theorem eraseData_zero {b : Buffer} (h : Bounded b) (hunread : b.unread.length ≠ 0)
    : b.eraseData 0 = b := by
  have hsize := h.disRead_size
  rw [length_unread] at hunread
  rw [eraseData_eq h (Nat.zero_le _)]
  rw [if_neg (by omega)]
  simp

end Buffer
end Fish
