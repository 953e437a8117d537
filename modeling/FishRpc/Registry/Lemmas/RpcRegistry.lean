import FishRpc.Lib.Run
import FishRpc.Net.Lemmas.TcpAddr
import FishRpc.Net.Lemmas.UringEffects
import FishRpc.Registry.Impl.RpcRegistry
import FishRpc.Rpc.Lemmas.ProtocolManager

/-!
This module contains the addresses of the registered providers. The registry stores the address of
the channel that a registration has come in on, and that is the address of its peer unless the
accepting thread is between `addNewFd` and `setAddr` for this channel.
-/

namespace Fish
namespace Uring

variable {s s' : Uring} {e : Completion} {c : ChannelId} {readBuf : Buffer}

theorem called_read (h : s.called e = some (c, readBuf))
    : ∃ r, s.ring[e.index]? = some r ∧ r.eventType = .read ∧ r.channel = c := by
  unfold called at h
  cases hr : s.ring[e.index]? with
  | none =>
    rw [hr] at h
    cases h
  | some r =>
    cases htype : r.eventType with
    | write =>
      simp only [hr, htype] at h
      cases h
    | read =>
      simp only [hr, htype, Option.ite_none_left_eq_some] at h
      cases h.2
      exact ⟨r, rfl, htype, rfl⟩

theorem Inv.called_lt (hinv : Inv s) (h : s.called e = some (c, readBuf)) : c < s.next := by
  rcases called_read h with ⟨r, hr, _, rfl⟩
  apply hinv.fresh r.clientSocket
  apply (hinv.ring r (List.mem_of_getElem? hr)).1

theorem Inv.next_complete (hinv : Inv s) (hindex : e.index < s.ring.length)
    (h : s.complete e = .ok s') : s'.next = s.next := by
  rcases complete_cases hinv hindex h with
    ⟨r, _, ⟨_, _, s₁, hquiet, rfl⟩ | ⟨_, _, fd, buf, size, _, _, rfl⟩ | ⟨_, _, s₁, hquiet, rfl⟩⟩
  . apply hquiet.next
  . rfl
  . apply hquiet.next

/-! ### The callback -/

-- the callback has seen the buffer that the completion erases from
theorem complete_of_called {consumed : Nat} (h : s.called e = some (c, readBuf))
    (hok : s.complete { e with consumed := consumed } = .ok s')
    : (s'.channels c).readBuf = readBuf.eraseData consumed := by
  rcases called_read h with ⟨r, hr, htype, rfl⟩
  unfold called at h
  simp only [hr, htype, Option.ite_none_left_eq_some, not_or] at h
  rcases h with ⟨⟨hopen, hsize⟩, h⟩
  cases h
  unfold complete at hok
  simp only [hr, htype, readCompletion, resume, useHandle, modify_channels_self, if_neg hopen,
    if_neg hsize] at hok
  split at hok
  . cases hok
  . cases hok
    simp [freeSlot, addReadRequest, Channel.eraseRead]

end Uring

namespace RpcRegistry

open Uring (Completion)

variable {s s' : RpcRegistry} {e : Completion} {c : ChannelId} {readBuf : Buffer} {raw : HeadMsg}
  {around : Int → Byte} {now : Int}

/-! ### Messages -/

-- the callback gets a message that asks for a registration
def Registers (s : RpcRegistry) (c : ChannelId) (readBuf : Buffer) (raw : HeadMsg)
    (around : Int → Byte) : Prop :=
  ∃ protocol, (s.protocols.readMes (s.uring.channels c).fd readBuf raw around).1 = some protocol ∧
    protocol.getType.toNat = MsgType.provider.toNat ∧ protocol.getId = 1

def after (s : RpcRegistry) (c : ChannelId) (readBuf : Buffer) (raw : HeadMsg)
    (around : Int → Byte) : RpcRegistry :=
  { s with protocols := (s.protocols.readMes (s.uring.channels c).fd readBuf raw around).2.1 }

theorem readMes_ready {m : ProtocolManager} {fd : Int} {protocol : Protocol}
    (h : (m.readMes fd readBuf raw around).1 = some protocol) : protocol.getState = .ready := by
  rw [ProtocolManager.readMes_eq] at h
  simp only [Option.ite_none_right_eq_some, decide_eq_true_eq] at h
  cases h.2
  apply h.1

theorem handleMessage_registers (h : s.Registers c readBuf raw around)
    : s.handleMessage c readBuf raw around now
        =
      some ((s.after c readBuf raw around).providerNew c now) := by
  rcases h with ⟨protocol, hread, htype, hid⟩
  have hready := readMes_ready hread
  have hstate : protocol.getState.toNat = MsgType.provider.toNat := by rw [hready]; rfl
  unfold handleMessage handleProvider
  simp only [hread, if_pos hready, if_pos htype, if_pos hstate, if_pos hid]
  rfl

theorem handleMessage_not_registers (h : ¬s.Registers c readBuf raw around)
    : s.handleMessage c readBuf raw around now = some (s.after c readBuf raw around) := by
  unfold handleMessage handleProvider
  cases hread : (s.protocols.readMes (s.uring.channels c).fd readBuf raw around).1 with
  | none => simp only [hread]; rfl
  | some protocol =>
    have hready := readMes_ready hread
    have hstate : protocol.getState.toNat = MsgType.provider.toNat := by rw [hready]; rfl
    simp only [hread, if_pos hready, if_pos hstate]
    by_cases htype : protocol.getType.toNat = MsgType.provider.toNat
    . have hid : ¬protocol.getId = 1 := fun hid => h ⟨protocol, hread, htype, hid⟩
      rw [if_pos htype, if_neg hid]
      rfl
    . rw [if_neg htype]
      rfl

/-! ### Steps -/

theorem ok_of_toOption {f : Uring → RpcRegistry} {result : Except Failure Uring}
    (h : result.toOption.map f = some s') : ∃ uring, result = .ok uring ∧ s' = f uring := by
  cases result with
  | error _ => cases h
  | ok uring =>
    cases h
    exact ⟨uring, rfl, rfl⟩

/--
A completion that runs the callback leaves the receive buffer as `readMes` does.
-/
theorem complete_cases (h : s.complete e raw around now = some s')
    : ∃ consumed uring, e.index < s.uring.ring.length ∧
        s.uring.complete { e with consumed := consumed } = .ok uring ∧
        ((s.uring.called e = none ∧ s' = { s with uring := uring }) ∨
          ∃ c readBuf, s.uring.called e = some (c, readBuf) ∧
            (uring.channels c).readBuf
              = (s.protocols.readMes (s.uring.channels c).fd readBuf raw around).2.2 ∧
            ((s.Registers c readBuf raw around ∧
                s' = { (s.after c readBuf raw around).providerNew c now with uring := uring }) ∨
              (¬s.Registers c readBuf raw around ∧
                s' = { s.after c readBuf raw around with uring := uring }))) := by
  unfold complete at h
  simp only [Option.ite_none_right_eq_some] at h
  rcases h with ⟨hindex, h⟩
  cases hcalled : s.uring.called e with
  | none =>
    rw [hcalled] at h
    rcases ok_of_toOption h with ⟨uring, hok, hs'⟩
    refine ⟨e.consumed, uring, hindex, hok, Or.inl ⟨rfl, hs'⟩⟩
  | some call =>
    rcases call with ⟨c, readBuf⟩
    simp only [hcalled] at h
    rcases Option.bind_eq_some_iff.mp h with ⟨s₁, hhandled, h⟩
    rcases ok_of_toOption h with ⟨uring, hok, hs'⟩
    have hbuf := Uring.complete_of_called hcalled hok
    refine ⟨s.protocols.consumed (s.uring.channels c).fd readBuf raw around, uring, hindex, hok,
      Or.inr ⟨c, readBuf, rfl, ?_, ?_⟩⟩
    . rw [hbuf]
      rfl
    . by_cases hregisters : s.Registers c readBuf raw around
      . rw [handleMessage_registers hregisters] at hhandled
        cases hhandled
        exact Or.inl ⟨hregisters, hs'⟩
      . rw [handleMessage_not_registers hregisters] at hhandled
        cases hhandled
        exact Or.inr ⟨hregisters, hs'⟩

/-! ### Addresses -/

-- `addNewFd` has returned the channel and `setAddr` has not been called on it
def Pending (s : RpcRegistry) (c : ChannelId) : Prop :=
  ∃ clientAddr, s.accepting = .added c clientAddr

def Recorded (s : RpcRegistry) (c : ChannelId) (addr : TcpAddr) : Prop :=
  ∃ peer, s.peer c = some peer ∧ TcpAddr.ofSockaddr peer = some addr

-- each registered provider has the address of the peer that the registration came from
def Faithful (s : RpcRegistry) : Prop :=
  ∀ mes ∈ s.providers, s.Recorded mes.channel mes.addr

-- no registration comes in on a channel that has no address yet
def AddressSet (s : RpcRegistry) : Event → Prop
  | .complete e raw around _ =>
    ∀ c readBuf, s.uring.called e = some (c, readBuf) → s.Registers c readBuf raw around →
      ¬s.Pending c
  | _ => True

structure Inv (s : RpcRegistry) : Prop where
  uring : Uring.Inv s.uring
  address : ∀ c < s.uring.next, ¬s.Pending c → s.Recorded c (s.addr c)
  pending : ∀ c clientAddr, s.accepting = .added c clientAddr →
    s.peer c = some clientAddr ∧ s.addr c = TcpAddr.default
  stored : ∀ mes ∈ s.providers, mes.channel < s.uring.next

theorem recorded_pos {addr : TcpAddr} (h : s.Recorded c addr) : 0 < addr.port := by
  rcases h with ⟨peer, _, haddr⟩
  apply TcpAddr.port_pos haddr

theorem Inv.recorded_iff (h : Inv s) (hc : c < s.uring.next)
    : s.Recorded c (s.addr c) ↔ ¬s.Pending c := by
  constructor
  . intro hrecorded hpending
    rcases hpending with ⟨clientAddr, hpending⟩
    have hpos := recorded_pos hrecorded
    rw [(h.pending c clientAddr hpending).2] at hpos
    exact absurd hpos (by decide)
  . apply h.address c hc

theorem inv_init (queueSize : Nat) : Inv (init queueSize) where
  uring := Uring.inv_init queueSize
  address c hc := absurd hc (Nat.not_lt_zero c)
  pending c clientAddr hc := by cases hc
  stored mes hmes := by cases hmes

theorem Inv.replaceUring (h : Inv s) {uring : Uring} (hinv : Uring.Inv uring)
    (hnext : uring.next = s.uring.next) : Inv { s with uring := uring } where
  uring := hinv
  address c hc := by
    rw [hnext] at hc
    apply h.address c hc
  pending := h.pending
  stored := by
    rw [hnext]
    apply h.stored

theorem Inv.after (h : Inv s) (c : ChannelId) (readBuf : Buffer) (raw : HeadMsg)
    (around : Int → Byte) : Inv (s.after c readBuf raw around) :=
  ⟨h.uring, h.address, h.pending, h.stored⟩

theorem Inv.providerNew (h : Inv s) (hc : c < s.uring.next) (now : Int)
    : Inv (s.providerNew c now) where
  uring := h.uring
  address := h.address
  pending := h.pending
  stored mes hmes := by
    rcases List.mem_append.mp hmes with hold | hnew
    . apply h.stored mes hold
    . cases List.mem_singleton.mp hnew
      apply hc

theorem faithful_providerNew (s : RpcRegistry) (c : ChannelId) (now : Int)
    : (s.providerNew c now).Faithful ↔ s.Faithful ∧ s.Recorded c (s.addr c) := by
  unfold Faithful providerNew
  simp only [List.forall_mem_append, List.forall_mem_singleton]
  rfl

theorem step_accept {fd : Int} {clientAddr : Sockaddr} (h : Step s (.accept fd clientAddr) s')
    : s.accepting = .idle ∧ s' = { s with accepting := .accepted fd clientAddr } := by
  simp only [Step, step, accept] at h
  split at h
  . simp only [Option.ite_none_right_eq_some] at h
    cases h.2
    exact ⟨by assumption, rfl⟩
  . cases h

theorem step_addNewFd {heap : Int → Byte} (h : Step s (.addNewFd heap) s')
    : ∃ fd clientAddr uring, s.accepting = .accepted fd clientAddr ∧
        Uring.Step s.uring (.addNewFd fd heap) uring ∧ uring.next = s.uring.next + 1 ∧
        s' =
          { s with
            uring := uring
            addr := Function.update s.addr s.uring.next TcpAddr.default
            accepting := .added s.uring.next clientAddr
            peer := Function.update s.peer s.uring.next (some clientAddr) } := by
  simp only [Step, step, addNewFd] at h
  split at h
  . simp only [Option.ite_none_right_eq_some] at h
    rcases ok_of_toOption h.2 with ⟨uring, hok, hs'⟩
    refine ⟨_, _, uring, by assumption, ⟨h.1, hok⟩, ?_, hs'⟩
    rw [Uring.addNewFd_cases hok]
    rfl
  . cases h

theorem step_setAddr (h : Step s .setAddr s')
    : ∃ c clientAddr addr, s.accepting = .added c clientAddr ∧
        TcpAddr.ofSockaddr clientAddr = some addr ∧
        s' = { s with addr := Function.update s.addr c addr, accepting := .idle } := by
  simp only [Step, step, setAddr] at h
  split at h
  . rcases Option.map_eq_some_iff.mp h with ⟨addr, haddr, hs'⟩
    exact ⟨_, _, addr, by assumption, haddr, hs'.symm⟩
  . cases h

theorem step_beginRecv (h : Step s .beginRecv s')
    : ∃ uring, Uring.Step s.uring .beginRecv uring ∧ uring.next = s.uring.next ∧
        s' = { s with uring := uring } := by
  rcases ok_of_toOption h with ⟨uring, hok, hs'⟩
  rcases Uring.beginRecv_cases hok with ⟨_, _, _, heq⟩
  refine ⟨uring, ⟨trivial, hok⟩, ?_, hs'⟩
  rw [heq]

theorem step_beginSend (h : Step s .beginSend s')
    : ∃ uring, Uring.Step s.uring .beginSend uring ∧ uring.next = s.uring.next ∧
        s' = { s with uring := uring } := by
  rcases ok_of_toOption h with ⟨uring, hok, hs'⟩
  rcases Uring.beginSend_cases hok with ⟨_, _, _, heq⟩
  refine ⟨uring, ⟨trivial, hok⟩, ?_, hs'⟩
  rw [heq]

theorem Inv.step_setAddr (h : Inv s) (hstep : Step s .setAddr s') : Inv s' := by
  rcases RpcRegistry.step_setAddr hstep with ⟨c, clientAddr, addr, haccepting, haddr, rfl⟩
  refine ⟨h.uring, ?_, ?_, h.stored⟩
  . intro c' hc' _
    by_cases heq : c' = c
    . subst heq
      simp only [Function.update_self]
      exact ⟨clientAddr, (h.pending c' clientAddr haccepting).1, haddr⟩
    . simp only [Function.update_of_ne heq]
      apply h.address c' hc'
      rintro ⟨clientAddr', hpending⟩
      rw [haccepting] at hpending
      cases hpending
      apply heq rfl
  . intro c' clientAddr' hpending
    cases hpending

theorem Inv.step_addNewFd {heap : Int → Byte} (h : Inv s) (hstep : Step s (.addNewFd heap) s')
    : Inv s' := by
  rcases RpcRegistry.step_addNewFd hstep with
    ⟨fd, clientAddr, uring, haccepting, huring, hnext, rfl⟩
  refine ⟨h.uring.of_step huring, ?_, ?_, ?_⟩
  . intro c hc hpending
    have hne : c ≠ s.uring.next := by
      rintro rfl
      apply hpending ⟨clientAddr, rfl⟩
    have hlt : c < s.uring.next := by
      simp only [hnext] at hc
      apply Nat.lt_of_le_of_ne (Nat.le_of_lt_succ hc) hne
    have hold : s.Recorded c (s.addr c) := by
      apply h.address c hlt
      rintro ⟨_, hpending⟩
      rw [haccepting] at hpending
      cases hpending
    unfold Recorded
    simp only [Function.update_of_ne hne]
    apply hold
  . intro c clientAddr' hpending
    cases hpending
    simp
  . intro mes hmes
    simp only [hnext]
    apply Nat.lt_succ_of_lt (h.stored mes hmes)

theorem Inv.step {e : Event} (h : Inv s) (hstep : Step s e s') : Inv s' := by
  cases e with
  | accept fd clientAddr =>
    rcases step_accept hstep with ⟨haccepting, rfl⟩
    refine ⟨h.uring, ?_, ?_, h.stored⟩
    . intro c hc _
      apply h.address c hc
      rintro ⟨_, hpending⟩
      rw [haccepting] at hpending
      cases hpending
    . intro c clientAddr' hpending
      cases hpending
  | addNewFd heap => apply h.step_addNewFd hstep
  | setAddr => apply h.step_setAddr hstep
  | beginRecv =>
    rcases step_beginRecv hstep with ⟨uring, huring, hnext, rfl⟩
    apply h.replaceUring (h.uring.of_step huring) hnext
  | beginSend =>
    rcases step_beginSend hstep with ⟨uring, huring, hnext, rfl⟩
    apply h.replaceUring (h.uring.of_step huring) hnext
  | complete e raw around now =>
    rcases complete_cases hstep with ⟨consumed, uring, hindex, hok, hcases⟩
    have hnext := h.uring.next_complete (e := { e with consumed := consumed }) hindex hok
    have huring : Uring.Step s.uring (.complete { e with consumed := consumed }) uring :=
      ⟨hindex, hok⟩
    have hinv := h.uring.of_step huring
    rcases hcases with ⟨_, rfl⟩ | ⟨c, readBuf, hcalled, _, ⟨_, rfl⟩ | ⟨_, rfl⟩⟩
    . apply h.replaceUring hinv hnext
    . have hc := h.uring.called_lt hcalled
      apply ((h.after c readBuf raw around).providerNew hc now).replaceUring hinv hnext
    . apply (h.after c readBuf raw around).replaceUring hinv hnext

theorem addressSet_of_none (h : s.uring.called e = none)
    : s.AddressSet (.complete e raw around now) := by
  intro c readBuf hcalled
  rw [h] at hcalled
  cases hcalled

theorem addressSet_iff (h : s.uring.called e = some (c, readBuf))
    : s.AddressSet (.complete e raw around now)
        ↔
      (s.Registers c readBuf raw around → ¬s.Pending c) := by
  constructor
  . intro hset
    apply hset c readBuf h
  . intro hset c' readBuf' hcalled
    rw [h] at hcalled
    cases hcalled
    apply hset

theorem faithful_addNewFd {heap : Int → Byte} (h : Inv s) (hstep : Step s (.addNewFd heap) s')
    : s'.Faithful ↔ s.Faithful := by
  rcases step_addNewFd hstep with ⟨fd, clientAddr, uring, _, _, _, rfl⟩
  apply forall₂_congr
  intro mes hmes
  have hne : mes.channel ≠ s.uring.next := Nat.ne_of_lt (h.stored mes hmes)
  unfold Recorded
  simp only [Function.update_of_ne hne]

theorem faithful_step {e : Event} (h : Inv s) (hstep : Step s e s')
    : s'.Faithful ↔ s.Faithful ∧ s.AddressSet e := by
  cases e with
  | accept fd clientAddr =>
    rcases step_accept hstep with ⟨_, rfl⟩
    exact (and_iff_left trivial).symm
  | addNewFd heap =>
    rw [faithful_addNewFd h hstep]
    exact (and_iff_left trivial).symm
  | setAddr =>
    rcases step_setAddr hstep with ⟨c, clientAddr, addr, _, _, rfl⟩
    exact (and_iff_left trivial).symm
  | beginRecv =>
    rcases step_beginRecv hstep with ⟨uring, _, _, rfl⟩
    exact (and_iff_left trivial).symm
  | beginSend =>
    rcases step_beginSend hstep with ⟨uring, _, _, rfl⟩
    exact (and_iff_left trivial).symm
  | complete e raw around now =>
    rcases complete_cases hstep with ⟨consumed, uring, _, _, hcases⟩
    rcases hcases with
      ⟨hcalled, rfl⟩ | ⟨c, readBuf, hcalled, _, ⟨hregisters, rfl⟩ | ⟨hregisters, rfl⟩⟩
    . exact (and_iff_left (addressSet_of_none hcalled)).symm
    . rw [addressSet_iff hcalled]
      have hnew := faithful_providerNew (s.after c readBuf raw around) c now
      have hrecorded := h.recorded_iff (h.uring.called_lt hcalled)
      simp only [hregisters, forall_const]
      rw [← hrecorded]
      apply hnew
    . rw [addressSet_iff hcalled]
      have hset : s.Registers c readBuf raw around → ¬s.Pending c := fun h => absurd h hregisters
      exact (and_iff_left hset).symm

/--
Each registered provider has the address of its peer exactly if no registration has come in on a
channel before its address was set.
-/
theorem faithful_iff {queueSize : Nat} {es : List Event}
    (h : Run Step Run.Always (init queueSize) es s)
    : s.Faithful ↔ Run Step AddressSet (init queueSize) es s := by
  have hstart : (init queueSize).Faithful := by
    intro mes hmes
    cases hmes
  apply h.holds_iff (inv_init queueSize) hstart
  . exact fun s e s' hs hstep => hs.step hstep
  . exact fun s e s' hs hstep => faithful_step hs hstep

/-! ### A registration between `addNewFd` and `setAddr` -/

def localhost : Sockaddr where
  sinAddr i := [127, 0, 0, 1].getD i.val 0
  sinPort := 0x409c

-- a message of the type 2 with the id 1, its 16 bytes announce 22 bytes of content
def header : List Byte := [0xcc, 16, 15, 1, 2, 0, 1, 0, 1, 0, 0, 0, 48, 48, 55, 48]

def receives (bytes : List Byte) : Event :=
  .complete ⟨0, bytes.length, 0, fun i => bytes.getD i 0, 0⟩ ⟨fun _ => 0⟩ (fun _ => 0) 0

def registration : List Event :=
  [.beginRecv, receives header, .beginRecv, receives (List.replicate 22 97)]

def connection : List Event := [.accept 5 localhost, .addNewFd fun _ => 0]

instance (s : RpcRegistry) (e : Event) : Decidable (Run.Always s e) := isTrue trivial

theorem run_of_ports {es : List Event} {ports : List Int}
    (h : (Run.execute step Run.Always (init 8) es).map
        (fun s => s.providers.map fun mes => mes.addr.port) = some ports)
    : ∃ s, Run Step Run.Always (init 8) es s ∧
        s.providers.map (fun mes => mes.addr.port) = ports := by
  rcases Option.map_eq_some_iff.mp h with ⟨s, hs, hports⟩
  exact ⟨s, Run.of_execute (fun _ _ _ hstep => hstep) hs, hports⟩

theorem faithful_iff_set
    : ∃ s,
        s.providers.map (fun mes => mes.addr.port) = [40000] ∧
        (s.Faithful ↔
          Run Step AddressSet (init 8) (connection ++ [.setAddr] ++ registration) s) := by
  have hrun : (Run.execute step Run.Always (init 8) (connection ++ [.setAddr] ++ registration)).map
      (fun s => s.providers.map fun mes => mes.addr.port) = some [40000] := by decide +kernel
  rcases run_of_ports hrun with ⟨s, hs, hports⟩
  exact ⟨s, hports, faithful_iff hs⟩

theorem not_faithful_pending
    : ∃ s, Run Step Run.Always (init 8) (connection ++ registration) s ∧ ¬s.Faithful := by
  have hrun : (Run.execute step Run.Always (init 8) (connection ++ registration)).map
      (fun s => s.providers.map fun mes => mes.addr.port) = some [-1] := by decide +kernel
  rcases run_of_ports hrun with ⟨s, hs, hports⟩
  refine ⟨s, hs, ?_⟩
  intro hfaithful
  rcases List.map_eq_singleton_iff.mp hports with ⟨mes, hmes, hport⟩
  have hmem : mes ∈ s.providers := by
    rw [hmes]
    apply List.mem_singleton_self
  have hpos := recorded_pos (hfaithful mes hmem)
  omega

end RpcRegistry
end Fish
