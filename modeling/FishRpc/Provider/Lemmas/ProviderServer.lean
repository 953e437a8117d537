import FishRpc.Net.Lemmas.UringAwaited
import FishRpc.Provider.Impl.ProviderServer
import FishRpc.Registry.Lemmas.RpcRegistry
import FishRpc.Rpc.Lemmas.ProtocolExit

/-!
This module contains what a provider does with heartbeats. It answers none of them, and it copies the
header of each as far as the peer's length byte says, which can be behind the end of `msgStr`.
-/

namespace Fish

namespace ProtocolManager

variable {m : ProtocolManager} {fd : Int} {readBuf : Buffer} {raw : HeadMsg} {around : Int → Byte}

-- a message that is waiting for its content, and the content has come
def Completes (m : ProtocolManager) (fd : Int) (readBuf : Buffer) (around : Int → Byte)
    (protocol : Protocol) : Prop :=
  m.undoProtols fd = some protocol ∧ protocol.handleState = .waitContent ∧
  15 ≤ readBuf.unread.length ∧
  protocol.contentLengthOf (memory readBuf around)
    ≤ readBuf.unread.length + protocol.content.length

-- the messages in the table have not been returned
def Unready (m : ProtocolManager) : Prop :=
  ∀ fd protocol, m.undoProtols fd = some protocol → protocol.handleState ≠ .ready

theorem unready_new : Unready new := by
  intro fd protocol h
  cases h

theorem Unready.readMes (h : m.Unready) : (m.readMes fd readBuf raw around).2.1.Unready := by
  rw [readMes_eq]
  intro fd' protocol hfound
  simp only at hfound
  by_cases heq : fd' = fd
  . subst heq
    rw [Function.update_self] at hfound
    split at hfound
    . cases hfound
    . rename_i hstate
      cases hfound
      simpa using hstate
  . rw [Function.update_of_ne heq] at hfound
    apply h fd' protocol hfound

theorem create_ready_iff {p : Protocol} (hp : p.handleState ≠ .ready) (view : List Byte)
    (mem : Memory)
    : (p.create view mem).2.handleState = .ready
        ↔
      p.handleState = .waitContent ∧ 15 ≤ view.length ∧
        p.contentLengthOf mem ≤ view.length + p.content.length := by
  have hexit := Protocol.create_exit p view mem
  generalize p.create view mem = created at hexit ⊢
  cases hexit with
  | short hlen => simp [hp, Nat.not_le.mpr hlen]
  | noMagic hlen hstate _ => simp [hstate]
  | cutHeader hlen hstate _ _ _ => simp [hstate]
  | header hlen hstate _ _ _ => simp [hstate]
  | cutContent hlen hstate hcut => simp [Nat.not_le.mpr hcut]
  | content hlen hstate hfit => simp [hlen, hstate, hfit]
  | idle hlen _ hwait => simp [hp, hwait]

-- the content does not change what the header says
theorem create_field {p : Protocol} (hstate : p.handleState = .waitContent) (view : List Byte)
    (mem : Memory) {off n : Nat} (h : off + n ≤ 12)
    : (p.create view mem).2.msg.field off n = p.msg.field off n := by
  have hexit := Protocol.create_exit p view mem
  generalize p.create view mem = created at hexit ⊢
  cases hexit with
  | short _ => rfl
  | noMagic _ hfree _ => simp [hstate] at hfree
  | cutHeader _ hfree _ _ _ => simp [hstate] at hfree
  | header _ hfree _ _ _ => simp [hstate] at hfree
  | cutContent _ _ _ => exact Protocol.setContentLength_field p _ h
  | content _ _ _ => exact Protocol.setContentLength_field p _ h
  | idle _ _ hwait => exact absurd hstate hwait

/--
A message that is returned has waited for its content in the table.
-/
theorem readMes_some_iff (h : m.Unready) (fd : Int) (readBuf : Buffer) (raw : HeadMsg)
    (around : Int → Byte) (protocol : Protocol)
    : (m.readMes fd readBuf raw around).1 = some protocol
        ↔
      ∃ undone, m.Completes fd readBuf around undone ∧
        protocol = (undone.create readBuf.unread (memory readBuf around)).2 := by
  have hcurrent : (m.current fd raw).handleState ≠ .ready := by
    cases hfound : m.undoProtols fd with
    | none =>
      rw [current_of_none raw hfound, Protocol.new_handleState]
      decide
    | some undone =>
      rw [current_of_some raw hfound]
      apply h fd undone hfound
  rw [readMes_eq]
  simp only [Option.ite_none_right_eq_some, decide_eq_true_eq, Option.some.injEq]
  rw [create_ready_iff hcurrent]
  constructor
  . rintro ⟨⟨hstate, hlen, hfit⟩, rfl⟩
    cases hfound : m.undoProtols fd with
    | none =>
      rw [current_of_none raw hfound, Protocol.new_handleState] at hstate
      cases hstate
    | some undone =>
      rw [current_of_some raw hfound] at hstate hfit ⊢
      exact ⟨undone, ⟨hfound, hstate, hlen, hfit⟩, rfl⟩
  . rintro ⟨undone, ⟨hfound, hstate, hlen, hfit⟩, rfl⟩
    rw [current_of_some raw hfound]
    exact ⟨⟨hstate, hlen, hfit⟩, rfl⟩

end ProtocolManager

namespace ProviderServer

open ProtocolManager (Completes)
open Uring (Completion Sends)

variable {queueSize : Nat} {s s' : ProviderServer} {e : Event} {es : List Event} {c : ChannelId}
  {readBuf : Buffer} {raw : HeadMsg} {around heap : Int → Byte}

/-! ### The callback -/

-- a heartbeat that this call completes fits into `msgStr` by its header
def ShortBeat (s : ProviderServer) (c : ChannelId) (readBuf : Buffer) (around : Int → Byte) : Prop :=
  ∀ undone, s.protocols.Completes (s.uring.channels c).fd readBuf around undone →
    undone.getType.toNat = MsgType.hbeat.toNat → undone.totalLength.toNat ≤ 16

theorem inside_resultReads_iff (protocol : Protocol)
    : (∀ i ∈ resultReads protocol, i < 16) ↔ protocol.totalLength.toNat ≤ 16 := by
  unfold resultReads
  constructor
  . intro h
    by_contra hlong
    have hlast := h 16 (List.mem_range.mpr (Nat.not_le.mp hlong))
    exact absurd hlast (by decide)
  . intro h i hi
    have hlt := List.mem_range.mp hi
    omega

theorem handleRead_spec (h : s.protocols.Unready) (c : ChannelId) (readBuf : Buffer)
    (raw : HeadMsg) (around : Int → Byte)
    : ∃ reads,
        s.handleRead c readBuf raw around
          =
        some ({ s with
          protocols := (s.protocols.readMes (s.uring.channels c).fd readBuf raw around).2.1
          reads := s.reads ++ reads }, none) ∧
        ((∀ i ∈ reads, i < 16) ↔ s.ShortBeat c readBuf around) := by
  have hiff := ProtocolManager.readMes_some_iff h (s.uring.channels c).fd readBuf raw around
  unfold handleRead
  cases hread : (s.protocols.readMes (s.uring.channels c).fd readBuf raw around).1 with
  | none =>
    refine ⟨[], ?_, ?_⟩
    . simp only [hread, List.append_nil]
    . rw [hread] at hiff
      refine iff_of_true (by simp) ?_
      intro undone hcompletes _
      cases (hiff _).mpr ⟨undone, hcompletes, rfl⟩
  | some protocol =>
    have hready := RpcRegistry.readMes_ready hread
    rcases (hiff protocol).mp hread with ⟨undone, hcompletes, hcreated⟩
    have htype : protocol.getType = undone.getType := by
      rw [hcreated]
      apply ProtocolManager.create_field hcompletes.2.1 _ _ (by omega)
    have htotal : protocol.totalLength = undone.totalLength := by
      rw [hcreated]
      apply ProtocolManager.create_field hcompletes.2.1 _ _ (by omega)
    have hshort : s.ShortBeat c readBuf around ↔
        (protocol.getType.toNat = MsgType.hbeat.toNat → protocol.totalLength.toNat ≤ 16) := by
      rw [htype, htotal]
      constructor
      . intro h
        apply h undone hcompletes
      . intro h undone' hcompletes'
        have heq := hcompletes.1.symm.trans hcompletes'.1
        cases heq
        exact h
    rw [hshort]
    by_cases hbeat : protocol.getType.toNat = MsgType.hbeat.toNat
    . refine ⟨resultReads protocol, ?_, ?_⟩
      . simp only [hread, hready, if_true, hanleHealth, if_pos hbeat, Option.map_none]
      . rw [inside_resultReads_iff]
        simp only [hbeat, forall_const]
    . refine ⟨[], ?_, ?_⟩
      . simp only [hread, hready, if_true, if_neg hbeat, List.append_nil]
      . simp [hbeat]

/-! ### Steps -/

def Short (s : ProviderServer) : Event → Prop
  | .complete e _ around _ =>
    ∀ c readBuf, s.uring.called e = some (c, readBuf) → s.ShortBeat c readBuf around
  | _ => True

def Inside (s : ProviderServer) : Prop := ∀ i ∈ s.reads, i < 16

-- one step of the loop that sends nothing, and what it reads of a heartbeat
structure Stepped (s : ProviderServer) (e : Event) (s' : ProviderServer) : Prop where
  uring : ∃ u, ¬Sends u ∧ Uring.Step s.uring u s'.uring
  unready : s'.protocols.Unready
  inside : s'.Inside ↔ s.Inside ∧ s.Short e

theorem stepped_of_uring (h : s.protocols.Unready) {uring : Uring} {u : Uring.Event}
    (hquiet : ¬Sends u) (huring : Uring.Step s.uring u uring) (hshort : s.Short e)
    : Stepped s e { s with uring := uring } where
  uring := ⟨u, hquiet, huring⟩
  unready := h
  inside := by
    simp only [hshort, and_true]
    rfl

theorem ok_of_toOption {result : Except Failure Uring} {uring : Uring}
    (h : result.toOption = some uring) : result = .ok uring := by
  cases result with
  | error _ => cases h
  | ok _ =>
    cases h
    rfl

theorem step_complete {e : Completion} (h : s.protocols.Unready)
    (hstep : s.complete e raw around heap = some s')
    : Stepped s (.complete e raw around heap) s' := by
  simp only [complete, Option.ite_none_right_eq_some] at hstep
  rcases hstep with ⟨hindex, hstep⟩
  cases hcalled : s.uring.called e with
  | none =>
    simp only [hcalled] at hstep
    rcases Option.map_eq_some_iff.mp hstep with ⟨uring, hok, rfl⟩
    apply stepped_of_uring h (u := .complete e) id ⟨hindex, ok_of_toOption hok⟩
    intro c readBuf hcall
    rw [hcalled] at hcall
    cases hcall
  | some call =>
    rcases call with ⟨c, readBuf⟩
    rcases handleRead_spec h c readBuf raw around with ⟨reads, hread, hinside⟩
    simp only [hcalled, hread, Option.bind_some] at hstep
    rcases Option.map_eq_some_iff.mp hstep with ⟨uring, hok, rfl⟩
    have hshort : s.Short (.complete e raw around heap) ↔ s.ShortBeat c readBuf around := by
      simp only [Short, hcalled, Option.some.injEq, Prod.mk.injEq, and_imp]
      exact ⟨fun hall => hall c readBuf rfl rfl, fun hbeat c' buf' hc hbuf => hc ▸ hbuf ▸ hbeat⟩
    let consumed := s.protocols.consumed (s.uring.channels c).fd readBuf raw around
    refine ⟨⟨.complete { e with consumed }, id, hindex, ok_of_toOption hok⟩, h.readMes, ?_⟩
    rw [hshort, ← hinside]
    unfold Inside
    simp only [List.forall_mem_append]

theorem stepped (h : s.protocols.Unready) (hstep : Step s e s') : Stepped s e s' := by
  cases e with
  | listen fd clientAddr heap =>
    simp only [Step, step, listen, Option.ite_none_right_eq_some] at hstep
    rcases Option.bind_eq_some_iff.mp hstep.2 with ⟨uring, hok, haddr⟩
    rcases Option.map_eq_some_iff.mp haddr with ⟨_, _, rfl⟩
    exact stepped_of_uring h (u := .addNewFd fd heap) id ⟨hstep.1.2, ok_of_toOption hok⟩ trivial
  | beginRecv =>
    rcases Option.map_eq_some_iff.mp hstep with ⟨uring, hok, rfl⟩
    exact stepped_of_uring h (u := .beginRecv) id ⟨trivial, ok_of_toOption hok⟩ trivial
  | beginSend =>
    rcases Option.map_eq_some_iff.mp hstep with ⟨uring, hok, rfl⟩
    exact stepped_of_uring h (u := .beginSend) id ⟨trivial, ok_of_toOption hok⟩ trivial
  | complete e raw around heap => exact step_complete h hstep

/-! ### Runs -/

structure Serving (queueSize : Nat) (s : ProviderServer) : Prop where
  uring : Uring.Serving queueSize s.uring
  unready : s.protocols.Unready

theorem serving_init (queueSize : Nat) : Serving queueSize (init queueSize) :=
  ⟨Uring.serving_init queueSize, ProtocolManager.unready_new⟩

theorem Serving.step (h : Serving queueSize s) (hstep : Step s e s') : Serving queueSize s' := by
  have hstepped := stepped h.unready hstep
  rcases hstepped.uring with ⟨u, hquiet, huring⟩
  exact ⟨h.uring.step hquiet huring, hstepped.unready⟩

-- a heartbeat with the id 1 and the length `length`, its content is empty
def heartbeat (length : Nat) : List Event :=
  let header := [0xcc, BitVec.ofNat 8 length, 15, 1, 1, 0, 1, 0, 1, 0, 0, 0, 48, 48, 48, 48, 48]
  let receives (bytes : List Byte) : Event :=
    .complete ⟨0, bytes.length, 0, fun i => bytes.getD i 0, 0⟩ ⟨fun _ => 48⟩ (fun _ => 48) fun _ => 0
  [.listen 5 RpcRegistry.localhost fun _ => 0, .beginRecv, receives (header.take length), .beginRecv,
    receives (List.replicate 15 48)]

instance (s : ProviderServer) (e : Event) : Decidable (Run.Always s e) := isTrue trivial

theorem run_of_reads {reads : List Nat}
    (h : (Run.execute step Run.Always (init 8) es).map (fun s => s.reads) = some reads)
    : ∃ s, Run Step Run.Always (init 8) es s ∧ s.reads = reads := by
  rcases Option.map_eq_some_iff.mp h with ⟨s, hs, hreads⟩
  exact ⟨s, Run.of_execute (fun _ _ _ hstep => hstep) hs, hreads⟩

/--
The bytes that a provider copies of its heartbeats are bytes of `msgStr` in exactly the runs in which
no heartbeat with a length byte above 16 gets its content.
-/
theorem inside_iff_short (h : Run Step Run.Always (init queueSize) es s)
    : (∀ i ∈ s.reads, i < 16) ↔ Run Step Short (init queueSize) es s := by
  have hstart : (init queueSize).Inside := by
    intro i hi
    cases hi
  apply h.holds_iff (serving_init queueSize) hstart
  . exact fun s e s' hs hstep => hs.step hstep
  . exact fun s e s' hs hstep => (stepped hs.unready hstep).inside

-- the last byte is the one behind the header
theorem inside_iff_short_seventeen
    : ∃ s : ProviderServer, s.reads = List.range 17 ∧
        ((∀ i ∈ s.reads, i < 16) ↔ Run Step Short (init 8) (heartbeat 17) s) := by
  have hrun : (Run.execute step Run.Always (init 8) (heartbeat 17)).map (fun s => s.reads)
      = some (List.range 17) := by decide +kernel
  rcases run_of_reads hrun with ⟨s, hs, hreads⟩
  exact ⟨s, hreads, inside_iff_short hs⟩

end ProviderServer
end Fish
