import FishRpc.Rpc.Impl.SeriBuf

/-!
This module contains the specification of the fixed width reads and writes of `SeriBuf`.
-/

namespace Fish
namespace SeriBuf

open LittleEndian

@[simp]
theorem declare_buf (s : SeriBuf) (len : Nat) : (s.declare len).2.buf = s.buf := rfl

@[simp]
theorem length_declare (s : SeriBuf) (len : Nat) : (s.declare len).1.length = len := by
  simp [declare]

theorem output_rest (s : SeriBuf) (object : List Byte) (len : Nat)
    : (s.output object len).2 = { s with buf := s.buf.drop len } := by
  unfold output
  simp only
  split
  . rw [List.drop_length, List.drop_eq_nil_of_le (by omega)]
  . rfl

theorem output_enough (s : SeriBuf) (object bytes rest : List Byte)
    (hbuf : s.buf = bytes ++ rest) (hobject : object.length = bytes.length)
    : s.output object bytes.length = (bytes, { s with buf := rest }) := by
  have hlen : ¬ bytes.length > s.buf.length := by
    rw [hbuf]
    simp
  simp only [output, hlen, ↓reduceIte]
  rw [hbuf]
  rw [← hobject]
  simp [hobject]

/--
Short of data the last bytes of the result are what the local variable held before.
-/
theorem outputFixed_eq (width : Nat) (s : SeriBuf)
    : s.outputFixed width
        =
      (BitVec.ofNat (8 * width)
          (ofBytes (s.buf.take width ++ ((List.range width).map s.stack).drop s.buf.length)),
        { buf := s.buf.drop width, stack := fun i => s.stack (i + width) }) := by
  unfold outputFixed declare output
  simp only
  split
  . have htake : s.buf.take width = s.buf := List.take_of_length_le (by omega)
    have hdrop : s.buf.drop width = [] := List.drop_eq_nil_of_le (by omega)
    rw [htake, hdrop, List.take_length, List.drop_length]
  . have hdrop : ((List.range width).map s.stack).drop s.buf.length = [] := by
      apply List.drop_eq_nil_of_le
      rw [List.length_map, List.length_range]
      omega
    have hdrop' : ((List.range width).map s.stack).drop width = [] := by
      apply List.drop_eq_nil_of_le
      rw [List.length_map, List.length_range]
    rw [hdrop, hdrop']

theorem outputFixed_toBytes (width : Nat) (s : SeriBuf) (value : BitVec (8 * width))
    (rest : List Byte) (hbuf : s.buf = toBytes width value.toNat ++ rest)
    : (s.outputFixed width).1 = value ∧ (s.outputFixed width).2.buf = rest := by
  have hout := output_enough (s.declare width).2 (s.declare width).1 (toBytes width value.toNat)
    rest (by simpa using hbuf) (by simp)
  simp only [length_toBytes] at hout
  have hvalue : value.toNat < 256 ^ width := by
    have := value.isLt
    rwa [Nat.pow_mul] at this
  constructor
  . simp only [outputFixed, hout, ofBytes_toBytes_of_lt hvalue, BitVec.ofNat_toNat,
      BitVec.setWidth_eq]
  . simp only [outputFixed, hout]

theorem outputFixed_rebuilds (width : Nat) (s : SeriBuf) (hlen : width ≤ s.buf.length)
    : s.buf = toBytes width (s.outputFixed width).1.toNat ++ (s.outputFixed width).2.buf := by
  have htake : (s.buf.take width).length = width := List.length_take_of_le hlen
  have hout := output_enough (s.declare width).2 (s.declare width).1 (s.buf.take width)
    (s.buf.drop width) (by simp) (by simp [htake])
  have hlt := ofBytes_lt (s.buf.take width)
  have hbytes := toBytes_ofBytes (s.buf.take width)
  rw [htake] at hout hlt hbytes
  simp only [outputFixed, hout, BitVec.toNat_ofNat]
  rw [Nat.pow_mul]
  rw [Nat.mod_eq_of_lt hlt]
  rw [hbytes]
  rw [List.take_append_drop]

end SeriBuf
end Fish
