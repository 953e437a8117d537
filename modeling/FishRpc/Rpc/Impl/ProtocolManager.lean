import FishRpc.Net.Impl.Buffer
import FishRpc.Rpc.Impl.Protocol
import Mathlib.Logic.Function.Basic

/-!
This module contains `ProtocolManager`, the table of the messages that have been received in part.
Its key is the number of the socket.
-/

namespace Fish

structure ProtocolManager where
  undoProtols : Int → Option Protocol

namespace ProtocolManager

def new : ProtocolManager where
  undoProtols _ := none

def emplace (m : ProtocolManager) (fd : Int) (protocol : Protocol) : ProtocolManager :=
  match m.undoProtols fd with
  | some _ => m
  | none => { m with undoProtols := Function.update m.undoProtols fd (some protocol) }

def erase (m : ProtocolManager) (fd : Int) : ProtocolManager :=
  { m with undoProtols := Function.update m.undoProtols fd none }

-- `itor->second` is the object itself, what `create` changes in it is changed in the table
def mutate (m : ProtocolManager) (fd : Int) (protocol : Protocol) : ProtocolManager :=
  { m with undoProtols := Function.update m.undoProtols fd (some protocol) }

-- the end of `readMes`, `oldFlag` says that the message was found in the table
def settle (m : ProtocolManager) (fd : Int) (protocol : Protocol) (flag oldFlag : Bool)
    : ProtocolManager :=
  if flag ∧ oldFlag then
    m.erase fd
  else if ¬flag ∧ ¬oldFlag then
    m.emplace fd protocol
  else
    m

-- `raw` is the memory that a new message is allocated in and `around` that next to its `msgStr`
def readMes (m : ProtocolManager) (fd : Int) (readBuf : Buffer) (raw : HeadMsg)
    (around : Int → Byte) : Option Protocol × ProtocolManager × Buffer :=
  let view := readBuf.disRead
  let mem := { past := fun i => readBuf.data (view.offset + view.size + i), around := around }
  let itor := m.undoProtols fd
  let oldFlag := itor.isSome
  let protocol := itor.getD (Protocol.new raw)
  let (size, protocol) := protocol.create (readBuf.read view) mem
  let m := if oldFlag then m.mutate fd protocol else m
  let flag := decide (protocol.getState = .ready)
  let size := max size 0
  let readBuf := readBuf.eraseData size.toNat
  let m := m.settle fd protocol flag oldFlag
  (if flag then some protocol else none, m, readBuf)

-- the bytes that `readMes` erases
def consumed (m : ProtocolManager) (fd : Int) (readBuf : Buffer) (raw : HeadMsg)
    (around : Int → Byte) : Nat :=
  let view := readBuf.disRead
  let mem := { past := fun i => readBuf.data (view.offset + view.size + i), around := around }
  let protocol := (m.undoProtols fd).getD (Protocol.new raw)
  (max (protocol.create (readBuf.read view) mem).1 0).toNat

end ProtocolManager
end Fish
