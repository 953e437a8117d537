import FishRpc.Rpc.Impl.ProtocolManager
import FishRpc.Net.Lemmas.Buffer

/-!
This module contains what one call of `readMes` does to the table, the receive buffer and the
message it works on.
-/

namespace Fish
namespace ProtocolManager

def current (m : ProtocolManager) (fd : Int) (raw : HeadMsg) : Protocol :=
  (m.undoProtols fd).getD (Protocol.new raw)

def memory (readBuf : Buffer) (around : Int → Byte) : Memory where
  past i := readBuf.data (readBuf.disRead.offset + readBuf.disRead.size + i)
  around := around

theorem settle_new {m : ProtocolManager} {fd : Int} (protocol : Protocol) (flag : Bool)
    (hfound : m.undoProtols fd = none)
    : m.settle fd protocol flag false
        =
      ⟨Function.update m.undoProtols fd (if flag then none else some protocol)⟩ := by
  have hkeep : Function.update m.undoProtols fd none = m.undoProtols :=
    Function.update_eq_self_iff.mpr hfound.symm
  cases flag with
  | true => simp [settle, hkeep]
  | false => simp [settle, emplace, hfound]

theorem settle_old (m : ProtocolManager) (fd : Int) (protocol : Protocol) (flag : Bool)
    : (m.mutate fd protocol).settle fd protocol flag true
        =
      ⟨Function.update m.undoProtols fd (if flag then none else some protocol)⟩ := by
  cases flag with
  | true => simp [settle, erase, mutate]
  | false => simp [settle, mutate]

/--
What is left in the table depends on the new state of the message only.
-/
theorem readMes_eq (m : ProtocolManager) (fd : Int) (readBuf : Buffer) (raw : HeadMsg)
    (around : Int → Byte)
    : m.readMes fd readBuf raw around
        =
      let created := (m.current fd raw).create readBuf.unread (memory readBuf around)
      let flag := decide (created.2.handleState = .ready)
      (if flag then some created.2 else none,
        ⟨Function.update m.undoProtols fd (if flag then none else some created.2)⟩,
        readBuf.eraseData (max created.1 0).toNat) := by
  unfold readMes current
  cases hfound : m.undoProtols fd with
  | none =>
    simp only [Option.isSome_none, Option.getD_none, Bool.false_eq_true, if_false]
    rw [settle_new _ _ hfound]
    rfl
  | some p =>
    simp only [Option.isSome_some, Option.getD_some, if_true]
    rw [settle_old]
    rfl

theorem current_of_none {m : ProtocolManager} {fd : Int} (raw : HeadMsg)
    (h : m.undoProtols fd = none) : m.current fd raw = Protocol.new raw := by
  simp [current, h]

theorem current_of_some {m : ProtocolManager} {fd : Int} (raw : HeadMsg) {p : Protocol}
    (h : m.undoProtols fd = some p) : m.current fd raw = p := by
  simp [current, h]

end ProtocolManager
end Fish
