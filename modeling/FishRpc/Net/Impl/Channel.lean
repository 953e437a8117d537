import FishRpc.Net.Impl.Buffer

/-!
This module contains the data of a connection as the io_uring loop sees it. Channels are named by
numbers, which stand for the addresses of the objects. A coroutine belongs to the channel it was
started for, so its handle is that channel's number. The address and the callbacks of a channel do
not influence the loop and are left out.
-/

namespace Fish

abbrev ChannelId := Nat

structure Task where
  handler : Option ChannelId
  deriving DecidableEq

inductive Side where
  | readBuf
  | sendBuf
  deriving DecidableEq

-- a pointer into the allocation number `storage` of a buffer
structure Pointer where
  channel : ChannelId
  side : Side
  storage : Nat
  offset : Int
  deriving DecidableEq

structure Channel where
  fd : Int
  readBuf : Buffer
  sendBuf : Buffer
  sendFlag : Int
  closeFlag : Bool
  task : Task

namespace Channel

def new (fd : Int) (bufSize : Nat) (heap : Int → Byte) : Channel where
  fd := fd
  readBuf := Buffer.new bufSize heap
  sendBuf := Buffer.new bufSize heap
  sendFlag := 0
  closeFlag := false
  task := { handler := none }

def dispReadBuf (c : Channel) : View := c.readBuf.disRead
-- the free part of the receive buffer
def dispWriteBuf (c : Channel) : View := c.readBuf.disWrite
def eraseRead (c : Channel) (len : Nat) : Channel := { c with readBuf := c.readBuf.eraseData len }
def eraseWrite (c : Channel) (len : Nat) : Channel := { c with sendBuf := c.sendBuf.eraseData len }
def alreadyRead (c : Channel) (len : Nat) : Channel := { c with readBuf := c.readBuf.already len }

def buffer (c : Channel) : Side → Buffer
  | .readBuf => c.readBuf
  | .sendBuf => c.sendBuf

-- what the kernel finds at a pointer, `freed` is the content of memory that has been given back
def load (c : Channel) (p : Pointer) (len : Nat) (freed : Nat → Byte) : List Byte :=
  if p.storage = (c.buffer p.side).storage then
    (c.buffer p.side).read { offset := p.offset, size := len }
  else
    (List.range len).map freed

-- the kernel receives into the receive buffer only
def store (c : Channel) (p : Pointer) (bytes : List Byte) : Channel :=
  if p.storage = c.readBuf.storage then
    { c with readBuf := c.readBuf.write p.offset bytes }
  else
    c

end Channel
end Fish
