import FishRpc.Rpc.Impl.ProtocolManager

/-!
This module contains the receiving side of a server: its connections by socket number and the table
of unfinished messages that they share. A `Connection` is the part of a channel that receiving uses
together with what has happened on it so far: the receive completions and the messages returned.
-/

namespace Fish

structure Arrival where
  chunk : List Byte
  around : Int → Byte

structure Connection where
  heap : Int → Byte
  readBuf : Buffer
  arrivals : List Arrival
  returned : List Protocol

namespace Connection

def new (heap : Int → Byte) : Connection where
  heap := heap
  readBuf := Buffer.new 1024 heap
  arrivals := []
  returned := []

def receive (c : Connection) (protocols : ProtocolManager) (fd : Int) (raw : HeadMsg) (a : Arrival)
    : Connection × ProtocolManager :=
  let read := protocols.readMes fd (c.readBuf.receive a.chunk) raw a.around
  let c :=
    { c with
      readBuf := read.2.2
      arrivals := c.arrivals ++ [a]
      returned := c.returned ++ read.1.toList }
  (c, read.2.1)

end Connection

structure Server where
  connections : Int → Option Connection
  protocols : ProtocolManager

namespace Server

inductive Event where
  | new (fd : Int) (heap : Int → Byte)
  | read (fd : Int) (a : Arrival)
  | close (fd : Int)

def init : Server where
  connections _ := none
  protocols := ProtocolManager.new

-- `none` if the event cannot happen: the number is (not) in use or the bytes exceed the window. `raw`
-- is the memory of the message that is allocated if the bytes are the first of one
def step (raw : HeadMsg) (s : Server) : Event → Option Server
  | .new fd heap =>
    match s.connections fd with
    | none => some { s with connections := Function.update s.connections fd (Connection.new heap) }
    | some _ => none
  | .read fd a =>
    match s.connections fd with
    | none => none
    | some c =>
      if a.chunk ≠ [] ∧ a.chunk.length ≤ c.readBuf.disWrite.size then
        let (c, protocols) := c.receive s.protocols fd raw a
        some ⟨Function.update s.connections fd (some c), protocols⟩
      else
        none
  | .close fd =>
    match s.connections fd with
    | none => none
    -- `handleClose` leaves the table as it is
    | some _ => some { s with connections := Function.update s.connections fd none }

-- each event of a run has its own memory
def Step (s : Server) (e : HeadMsg × Event) (s' : Server) : Prop :=
  step e.1 s e.2 = some s'

end Server
end Fish
