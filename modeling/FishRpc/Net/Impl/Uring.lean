import FishRpc.Net.Impl.Channel
import Mathlib.Logic.Function.Basic

/-!
This module contains the io_uring loop: the two request queues, the requests in flight, the
connection map and the channels. A failing assertion ends a step with a `Failure`, the assertions on
buffer indices are left out. `resume` lets the coroutine of the channel run to its next `co_read` or
to its end, whatever handle it is called with, although a null one ends the process; `handles` records
the handles that were used. The last fields of `Uring` are history: the channels that were removed
together with their outstanding requests at that moment, the bytes given to `send` and the bytes
accepted by the kernel.
-/

namespace Fish

inductive TaskOption where
  | read
  | write
  deriving DecidableEq

structure UringRequest where
  eventType : TaskOption
  clientSocket : Int
  channel : ChannelId
  ptr : Pointer
  len : Int
  deriving DecidableEq

structure SendRequest where
  fd : Int
  buf : Pointer
  size : Int
  deriving DecidableEq

structure Removal where
  channel : ChannelId
  outstanding : Nat
  deriving DecidableEq

structure Uring where
  recvQue : List Int
  sendQue : List SendRequest
  connections : Int → Option ChannelId
  ring : List UringRequest
  freeNum : Nat
  channels : ChannelId → Channel
  next : ChannelId
  openFds : Int → Bool
  handles : List (ChannelId × Option ChannelId)
  removed : List Removal
  given : ChannelId → List Byte
  accepted : ChannelId → List Byte

inductive Failure where
  | connection
  | newConnection
  | sameChannel
  | sameFd
  | sendFlag
  deriving DecidableEq

namespace Uring

def init (queueSize : Nat) : Uring where
  recvQue := []
  sendQue := []
  connections _ := none
  ring := []
  freeNum := queueSize - 1
  channels _ := Channel.new 0 0 fun _ => 0
  next := 0
  openFds _ := false
  handles := []
  removed := []
  given _ := []
  accepted _ := []

def reads (s : Uring) (fd : Int) : Nat :=
  s.recvQue.count fd + s.ring.countP fun r => r.eventType = .read ∧ r.clientSocket = fd

def writes (s : Uring) (fd : Int) : Nat :=
  (s.sendQue.countP fun q => q.fd = fd) +
    s.ring.countP fun r => r.eventType = .write ∧ r.clientSocket = fd

def modify (s : Uring) (c : ChannelId) (f : Channel → Channel) : Uring :=
  { s with channels := Function.update s.channels c (f (s.channels c)) }

def addWriteRequest (s : Uring) (fd : Int) (buf : Pointer) (size : Nat) : Uring :=
  { s with sendQue := s.sendQue ++ [⟨fd, buf, sizeToInt size⟩] }

def addReadRequest (s : Uring) (fd : Int) : Uring :=
  { s with recvQue := s.recvQue ++ [fd] }

def removeFd (s : Uring) (c : ChannelId) : Except Failure Uring :=
  let fd := (s.channels c).fd
  match s.connections fd with
  | none => .error .connection
  | some c' =>
    if c' = c then
      .ok
        { s with
          connections := Function.update s.connections fd none
          openFds := Function.update s.openFds fd false
          removed := s.removed ++ [⟨c, s.reads fd + s.writes fd⟩] }
    else
      .error .sameChannel

-- resumes or destroys the coroutine behind `task_`
def useHandle (s : Uring) (c : ChannelId) : Uring :=
  { s with handles := s.handles ++ [(c, (s.channels c).task.handler)] }

def close (s : Uring) (c : ChannelId) : Except Failure Uring :=
  if (s.channels c).sendFlag > 0 then
    .ok (s.modify c fun ch => { ch with closeFlag := true })
  else
    (s.useHandle c).removeFd c

def reduseSend (s : Uring) (c : ChannelId) : Except Failure Uring :=
  if (s.channels c).sendFlag > 0 then
    let s := s.modify c fun ch => { ch with sendFlag := ch.sendFlag - 1 }
    if (s.channels c).sendFlag = 0 ∧ (s.channels c).closeFlag then s.close c else .ok s
  else
    .error .sendFlag

def send (s : Uring) (c : ChannelId) (view : List Byte) (heap : Int → Byte) : Uring :=
  let s := { s with given := Function.update s.given c (s.given c ++ view) }
  if (s.channels c).closeFlag then
    s
  else
    let s := s.modify c fun ch => { ch with sendBuf := ch.sendBuf.input view heap }
    let ch := s.channels c
    let bufView := ch.sendBuf.disRead
    let s := s.addWriteRequest ch.fd ⟨c, .sendBuf, ch.sendBuf.storage, bufView.offset⟩ bufView.size
    s.modify c fun ch => { ch with sendFlag := ch.sendFlag + 1 }

-- a new coroutine runs to its first `co_read`
def coroutineFun (s : Uring) (c : ChannelId) : Task × Uring :=
  ({ handler := some c }, s.addReadRequest (s.channels c).fd)

-- the callback erases the bytes it has `consumed`
def resume (s : Uring) (c : ChannelId) (consumed : Nat) : Except Failure Uring :=
  let s := s.useHandle c
  if (s.channels c).dispReadBuf.size = 0 then
    s.close c
  else
    let s := s.modify c fun ch => ch.eraseRead consumed
    .ok (s.addReadRequest (s.channels c).fd)

def addNewFd (s : Uring) (fd : Int) (heap : Int → Byte) : Except Failure Uring :=
  match s.connections fd with
  | some _ => .error .newConnection
  | none =>
    let c := s.next
    let s := { s with next := s.next + 1, openFds := Function.update s.openFds fd true }
    let s := s.modify c fun _ => Channel.new fd 1024 heap
    let s := { s with connections := Function.update s.connections fd (some c) }
    -- `task()` returns a copy of `task_`, and the new task is assigned to that copy
    let (_, s) := s.coroutineFun c
    .ok s

def takeRecv (s : Uring) : List Int × Uring :=
  let size := s.recvQue.length
  if size ≤ s.freeNum then
    (s.recvQue, { s with recvQue := [], freeNum := s.freeNum - size })
  else
    (s.recvQue.take s.freeNum, { s with recvQue := s.recvQue.drop s.freeNum, freeNum := 0 })

def submitRecv (s : Uring) (fd : Int) : Except Failure Uring :=
  match s.connections fd with
  | none => .error .connection
  | some c =>
    if (s.channels c).fd = fd then
      let buf := (s.channels c).dispWriteBuf
      let ptr := ⟨c, .readBuf, (s.channels c).readBuf.storage, buf.offset⟩
      .ok { s with ring := s.ring ++ [⟨.read, fd, c, ptr, buf.size⟩] }
    else
      .error .sameFd

def beginRecv (s : Uring) : Except Failure Uring :=
  let (tempRecv, s) := s.takeRecv
  tempRecv.foldlM submitRecv s

def takeSend (s : Uring) : List SendRequest × Uring :=
  let size := s.sendQue.length
  if size ≤ s.freeNum then
    (s.sendQue, { s with sendQue := [], freeNum := s.freeNum - size })
  else
    (s.sendQue.take s.freeNum, { s with sendQue := s.sendQue.drop s.freeNum, freeNum := 0 })

def submitSend (s : Uring) (q : SendRequest) : Except Failure Uring :=
  match s.connections q.fd with
  | none => .error .connection
  | some c => .ok { s with ring := s.ring ++ [⟨.write, q.fd, c, q.buf, q.size⟩] }

def beginSend (s : Uring) : Except Failure Uring :=
  let (tempSend, s) := s.takeSend
  tempSend.foldlM submitSend s

def freeSlot (s : Uring) : Uring :=
  { s with freeNum := s.freeNum + 1 }

-- how a request ends: its result, the value of `errno`, the bytes received (for a `send`, those
-- found at a pointer to freed memory) and what the callback erases
structure Completion where
  index : Nat
  res : Int
  errno : Int
  data : Nat → Byte
  consumed : Nat

def readCompletion (s : Uring) (r : UringRequest) (e : Completion) : Except Failure Uring :=
  let s := s.modify r.channel fun ch => ch.store r.ptr ((List.range e.res.toNat).map e.data)
  match s.connections r.clientSocket with
  | none => .error .connection
  | some _ =>
    if e.res ≤ 0 ∧ e.errno = 0 then
      (s.close r.channel).map freeSlot
    else
      let s := s.modify r.channel fun ch => ch.alreadyRead (intToSize e.res)
      (s.resume r.channel e.consumed).map freeSlot

-- the kernel takes the first bytes of the request
def accept (s : Uring) (r : UringRequest) (e : Completion) : Uring :=
  let bytes := (s.channels r.ptr.channel).load r.ptr e.res.toNat e.data
  { s with accepted := Function.update s.accepted r.channel (s.accepted r.channel ++ bytes) }

def writeCompletion (s : Uring) (r : UringRequest) (e : Completion) : Except Failure Uring :=
  let s := s.accept r e
  match s.connections r.clientSocket with
  | none => .error .connection
  | some c =>
    let s := s.modify c fun ch => ch.eraseWrite (intToSize e.res)
    let ch := s.channels c
    let sendView := ch.dispWriteBuf
    if sendView.size > 0 then
      .ok (s.addWriteRequest ch.fd ⟨c, .readBuf, ch.readBuf.storage, sendView.offset⟩ sendView.size)
    else
      (s.reduseSend c).map freeSlot

def complete (s : Uring) (e : Completion) : Except Failure Uring :=
  match s.ring[e.index]? with
  | none => .ok s
  | some r =>
    let s := { s with ring := s.ring.eraseIdx e.index }
    match r.eventType with
    | .read => s.readCompletion r e
    | .write => s.writeCompletion r e

def eventLoop (s : Uring) (cqes : List Completion) : Except Failure Uring := do
  let s ← cqes.foldlM complete s
  let s ← s.beginRecv
  s.beginSend

/-! ### Atomic steps -/

inductive Event where
  | addNewFd (fd : Int) (heap : Int → Byte)
  | send (c : ChannelId) (view : List Byte) (heap : Int → Byte)
  | beginRecv
  | beginSend
  | complete (e : Completion)

-- the kernel returns no number of an open socket, `send` is called on connected channels
def Enabled (s : Uring) : Event → Prop
  | .addNewFd fd _ => s.openFds fd = false
  | .send c _ _ => s.connections (s.channels c).fd = some c
  | .complete e => e.index < s.ring.length
  | _ => True

def step (s : Uring) : Event → Except Failure Uring
  | .addNewFd fd heap => s.addNewFd fd heap
  | .send c view heap => .ok (s.send c view heap)
  | .beginRecv => s.beginRecv
  | .beginSend => s.beginSend
  | .complete e => s.complete e

def Step (s : Uring) (e : Event) (s' : Uring) : Prop :=
  s.Enabled e ∧ s.step e = .ok s'

end Uring
end Fish
