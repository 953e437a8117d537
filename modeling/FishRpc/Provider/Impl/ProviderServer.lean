import FishRpc.Registry.Impl.RpcRegistry

/-!
This module contains the server of a provider: its io_uring loop with the callbacks `handleRead`,
`handleNew` and `handleClose`, the last two of which do nothing. The log lines are left out. `reads`
is history: the positions of `msgStr` that `result` has been called to copy.
-/

namespace Fish

structure ProviderServer where
  uring : Uring
  protocols : ProtocolManager
  reads : List Nat

namespace ProviderServer

open Uring (Completion)

def init (queueSize : Nat) : ProviderServer where
  uring := Uring.init queueSize
  protocols := ProtocolManager.new
  reads := []

-- the positions that `std::copy` takes its bytes from
def resultReads (protocol : Protocol) : List Nat := List.range protocol.totalLength.toNat

-- `none` if the assertion fails, otherwise what is sent
def hanleHealth (s : ProviderServer) (protocol : Protocol) (around : Int → Byte)
    : Option (ProviderServer × Option (List Byte)) :=
  if protocol.getType.toNat = MsgType.hbeat.toNat then
    -- no case of the switch on the id sets it
    let responce : Option Protocol := none
    let result := protocol.result { past := fun _ => 0, around := around }
    let s := { s with reads := s.reads ++ resultReads protocol }
    some (s, responce.map fun _ => result)
  else
    none

def handleRead (s : ProviderServer) (channel : ChannelId) (readBuf : Buffer) (raw : HeadMsg)
    (around : Int → Byte) : Option (ProviderServer × Option (List Byte)) :=
  let fd := (s.uring.channels channel).fd
  let (protocol, protocols, _) := s.protocols.readMes fd readBuf raw around
  let s := { s with protocols := protocols }
  match protocol with
  | none => some (s, none)
  | some protocol =>
    if protocol.getState = .ready then
      -- nothing is done for the other types
      if protocol.getType.toNat = MsgType.hbeat.toNat then
        s.hanleHealth protocol around
      else
        some (s, none)
    else
      none

/-! ### Atomic steps -/

inductive Event where
  | listen (fd : Int) (clientAddr : Sockaddr) (heap : Int → Byte)
  | beginRecv
  | beginSend
  | complete (e : Completion) (raw : HeadMsg) (around heap : Int → Byte)

-- `listen_in_loop`, the constructor of `TcpAddr` can throw
def listen (s : ProviderServer) (fd : Int) (clientAddr : Sockaddr) (heap : Int → Byte)
    : Option ProviderServer :=
  if 0 < fd ∧ s.uring.openFds fd = false then
    (s.uring.addNewFd fd heap).toOption.bind fun uring =>
      (TcpAddr.ofSockaddr clientAddr).map fun _ => { s with uring := uring }
  else
    none

-- the bytes that the callback erases are given by `readMes`
def complete (s : ProviderServer) (e : Completion) (raw : HeadMsg) (around heap : Int → Byte)
    : Option ProviderServer :=
  if e.index < s.uring.ring.length then
    match s.uring.called e with
    | none => (s.uring.complete e).toOption.map fun uring => { s with uring := uring }
    | some (channel, readBuf) =>
      let fd := (s.uring.channels channel).fd
      let e := { e with consumed := s.protocols.consumed fd readBuf raw around }
      (s.handleRead channel readBuf raw around).bind fun (s', sent) =>
        (s.uring.complete e).toOption.map fun uring =>
          match sent with
          | none => { s' with uring := uring }
          | some view => { s' with uring := uring.send channel view heap }
  else
    none

-- `none` if the step cannot happen, an assertion fails or a constructor throws
def step (s : ProviderServer) : Event → Option ProviderServer
  | .listen fd clientAddr heap => s.listen fd clientAddr heap
  | .beginRecv => s.uring.beginRecv.toOption.map fun uring => { s with uring := uring }
  | .beginSend => s.uring.beginSend.toOption.map fun uring => { s with uring := uring }
  | .complete e raw around heap => s.complete e raw around heap

def Step (s : ProviderServer) (e : Event) (s' : ProviderServer) : Prop := s.step e = some s'

end ProviderServer
end Fish
