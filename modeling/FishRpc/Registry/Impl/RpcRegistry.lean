import FishRpc.Net.Impl.TcpAddr
import FishRpc.Net.Impl.Uring
import FishRpc.Rpc.Impl.ProtocolManager

/-!
This module contains the registry: the thread that accepts connections in `listen_in_loop`, the
io_uring loop with the callback `handleMessage`, and the registered providers. The log line is left
out. `addr` is the `addr_` of the channels. `peer` is history: the address that `accept` has returned
for the connection of a channel.
-/

namespace Fish

def RpcState.toNat : RpcState → Nat
  | working => 0
  | free => 1
  | ready => 2
  | waitContent => 3
  | lack => 4

inductive ProviderStatus where
  | health
  | weak
  | dead
  deriving DecidableEq

-- `lastHeart_recv` is not set
structure ProviderMes where
  id : BitVec 16
  addr : TcpAddr
  status : ProviderStatus
  channel : ChannelId
  lastHeartSend : Int

namespace Uring

-- the channel whose callback a completion runs, and its receive buffer at that moment
def called (s : Uring) (e : Completion) : Option (ChannelId × Buffer) :=
  match s.ring[e.index]? with
  | none => none
  | some r =>
    match r.eventType with
    | .write => none
    | .read =>
      let ch := (s.channels r.channel).store r.ptr ((List.range e.res.toNat).map e.data)
      let ch := ch.alreadyRead (intToSize e.res)
      if (e.res ≤ 0 ∧ e.errno = 0) ∨ ch.dispReadBuf.size = 0 then
        none
      else
        some (r.channel, ch.readBuf)

end Uring

-- where the thread is in `listen_in_loop`
inductive Accepting where
  | idle
  | accepted (fd : Int) (clientAddr : Sockaddr)
  | added (channel : ChannelId) (clientAddr : Sockaddr)

structure RpcRegistry where
  uring : Uring
  addr : ChannelId → TcpAddr
  accepting : Accepting
  protocols : ProtocolManager
  providers : List ProviderMes
  peer : ChannelId → Option Sockaddr

namespace RpcRegistry

open Uring (Completion)

def init (queueSize : Nat) : RpcRegistry where
  uring := Uring.init queueSize
  addr _ := TcpAddr.default
  accepting := .idle
  protocols := ProtocolManager.new
  providers := []
  peer _ := none

def providerNew (s : RpcRegistry) (channel : ChannelId) (now : Int) : RpcRegistry :=
  let mes :=
    { id := BitVec.ofNat 16 s.providers.length
      addr := s.addr channel
      status := .health
      channel := channel
      lastHeartSend := now }
  { s with providers := s.providers ++ [mes] }

-- `none` if an assertion fails, this one compares the state with a type of messages
def handleProvider (s : RpcRegistry) (protocol : Protocol) (channel : ChannelId) (now : Int)
    : Option RpcRegistry :=
  if protocol.getState.toNat = MsgType.provider.toNat then
    if protocol.getId = 1 then some (s.providerNew channel now) else some s
  else
    none

def handleMessage (s : RpcRegistry) (channel : ChannelId) (readBuf : Buffer) (raw : HeadMsg)
    (around : Int → Byte) (now : Int) : Option RpcRegistry :=
  let fd := (s.uring.channels channel).fd
  let (protocol, protocols, _) := s.protocols.readMes fd readBuf raw around
  let s := { s with protocols := protocols }
  match protocol with
  | none => some s
  | some protocol =>
    if protocol.getState = .ready then
      -- nothing is done for the other types
      if protocol.getType.toNat = MsgType.provider.toNat then
        s.handleProvider protocol channel now
      else
        some s
    else
      none

/-! ### Atomic steps -/

inductive Event where
  | accept (fd : Int) (clientAddr : Sockaddr)
  | addNewFd (heap : Int → Byte)
  | setAddr
  | beginRecv
  | beginSend
  | complete (e : Completion) (raw : HeadMsg) (around : Int → Byte) (now : Int)

def accept (s : RpcRegistry) (fd : Int) (clientAddr : Sockaddr) : Option RpcRegistry :=
  match s.accepting with
  | .idle => if 0 < fd then some { s with accepting := .accepted fd clientAddr } else none
  | _ => none

-- the number that `accept` has returned is not that of an open socket
def addNewFd (s : RpcRegistry) (heap : Int → Byte) : Option RpcRegistry :=
  match s.accepting with
  | .accepted fd clientAddr =>
    if s.uring.openFds fd = false then
      (s.uring.addNewFd fd heap).toOption.map fun uring =>
        let channel := s.uring.next
        { s with
          uring := uring
          addr := Function.update s.addr channel TcpAddr.default
          accepting := .added channel clientAddr
          peer := Function.update s.peer channel (some clientAddr) }
    else
      none
  | _ => none

def setAddr (s : RpcRegistry) : Option RpcRegistry :=
  match s.accepting with
  | .added channel clientAddr =>
    (TcpAddr.ofSockaddr clientAddr).map fun addr =>
      { s with addr := Function.update s.addr channel addr, accepting := .idle }
  | _ => none

-- the bytes that the callback erases are given by `readMes`
def complete (s : RpcRegistry) (e : Completion) (raw : HeadMsg) (around : Int → Byte) (now : Int)
    : Option RpcRegistry :=
  if e.index < s.uring.ring.length then
    match s.uring.called e with
    | none => (s.uring.complete e).toOption.map fun uring => { s with uring := uring }
    | some (channel, readBuf) =>
      let fd := (s.uring.channels channel).fd
      let e := { e with consumed := s.protocols.consumed fd readBuf raw around }
      (s.handleMessage channel readBuf raw around now).bind fun s' =>
        (s.uring.complete e).toOption.map fun uring => { s' with uring := uring }
  else
    none

-- `none` if the step cannot happen, an assertion fails or a constructor throws
def step (s : RpcRegistry) : Event → Option RpcRegistry
  | .accept fd clientAddr => s.accept fd clientAddr
  | .addNewFd heap => s.addNewFd heap
  | .setAddr => s.setAddr
  | .beginRecv => s.uring.beginRecv.toOption.map fun uring => { s with uring := uring }
  | .beginSend => s.uring.beginSend.toOption.map fun uring => { s with uring := uring }
  | .complete e raw around now => s.complete e raw around now

def Step (s : RpcRegistry) (e : Event) (s' : RpcRegistry) : Prop := s.step e = some s'

end RpcRegistry
end Fish
