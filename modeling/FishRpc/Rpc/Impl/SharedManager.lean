import FishRpc.Rpc.Impl.ProtocolManager

/-!
This module contains the table of unfinished messages together with the objects that its shared
pointers lead to. `ProtocolManager` is the same table with each pointer replaced by its object.
-/

namespace Fish

abbrev ProtocolPtr := Nat

-- the objects `0 .. next - 1` have been allocated
structure SharedManager where
  undoProtols : Int → Option ProtocolPtr
  objects : ProtocolPtr → Protocol
  next : ProtocolPtr

namespace SharedManager

-- `raw` is what the objects that have not been allocated are made of
def new (raw : HeadMsg) : SharedManager where
  undoProtols _ := none
  objects _ := Protocol.new raw
  next := 0

def values (m : SharedManager) : ProtocolManager where
  undoProtols fd := (m.undoProtols fd).map m.objects

def makeShared (m : SharedManager) (raw : HeadMsg) : ProtocolPtr × SharedManager :=
  (m.next,
    { m with
      objects := Function.update m.objects m.next (Protocol.new raw)
      next := m.next + 1 })

def emplace (m : SharedManager) (fd : Int) (protocol : ProtocolPtr) : SharedManager :=
  match m.undoProtols fd with
  | some _ => m
  | none => { m with undoProtols := Function.update m.undoProtols fd (some protocol) }

def erase (m : SharedManager) (fd : Int) : SharedManager :=
  { m with undoProtols := Function.update m.undoProtols fd none }

def mutate (m : SharedManager) (protocol : ProtocolPtr) (object : Protocol) : SharedManager :=
  { m with objects := Function.update m.objects protocol object }

-- the first block of `readMes`
def locate (m : SharedManager) (fd : Int) (raw : HeadMsg) : ProtocolPtr × SharedManager :=
  match m.undoProtols fd with
  | none => m.makeShared raw
  | some protocol => (protocol, m)

-- the end of `readMes`, `oldFlag` says that the message was found in the table
def settle (m : SharedManager) (fd : Int) (protocol : ProtocolPtr) (flag oldFlag : Bool)
    : SharedManager :=
  if flag ∧ oldFlag then
    m.erase fd
  else if ¬flag ∧ ¬oldFlag then
    m.emplace fd protocol
  else
    m

def readMes (m : SharedManager) (fd : Int) (readBuf : Buffer) (raw : HeadMsg)
    (around : Int → Byte) : Option ProtocolPtr × SharedManager × Buffer :=
  let view := readBuf.disRead
  let mem := { past := fun i => readBuf.data (view.offset + view.size + i), around := around }
  let oldFlag := (m.undoProtols fd).isSome
  let (protocol, m) := m.locate fd raw
  let (size, object) := (m.objects protocol).create (readBuf.read view) mem
  let m := m.mutate protocol object
  let flag := decide ((m.objects protocol).getState = .ready)
  let size := max size 0
  let readBuf := readBuf.eraseData size.toNat
  let m := m.settle fd protocol flag oldFlag
  (if flag then some protocol else none, m, readBuf)

structure ReadCall where
  fd : Int
  readBuf : Buffer
  raw : HeadMsg
  around : Int → Byte

-- a call together with the object that it worked on and the pointer that it returned
structure Served where
  fd : Int
  protocol : ProtocolPtr
  returned : Option ProtocolPtr

def serveOne (s : SharedManager × List Served) (call : ReadCall) : SharedManager × List Served :=
  let read := s.1.readMes call.fd call.readBuf call.raw call.around
  let served :=
    { fd := call.fd, protocol := (s.1.locate call.fd call.raw).1, returned := read.1 : Served }
  (read.2.1, s.2 ++ [served])

def serve (raw : HeadMsg) (calls : List ReadCall) : SharedManager × List Served :=
  calls.foldl serveOne (new raw, [])

end SharedManager
end Fish
