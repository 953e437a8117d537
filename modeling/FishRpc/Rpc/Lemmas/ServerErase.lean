import FishRpc.Lib.Run
import FishRpc.Rpc.Impl.Server
import FishRpc.Rpc.Lemmas.ProtocolManager
import FishRpc.Rpc.Lemmas.ProtocolRecovery

/-!
This module contains what the events of a server do and the safety of the erasing in `readMes`.
Whatever the peers of a server send, a read erases at most the bytes that are unread, so the
assertion of `eraseData` holds.
-/

namespace Fish
namespace ProtocolManager

theorem consumed_eq (m : ProtocolManager) (fd : Int) (readBuf : Buffer) (raw : HeadMsg)
    (around : Int → Byte)
    : m.consumed fd readBuf raw around
        =
      (max ((m.current fd raw).create readBuf.unread (memory readBuf around)).1 0).toNat := rfl

theorem readMes_buffer (m : ProtocolManager) (fd : Int) (readBuf : Buffer) (raw : HeadMsg)
    (around : Int → Byte)
    : (m.readMes fd readBuf raw around).2.2
        =
      readBuf.eraseData (m.consumed fd readBuf raw around) := by
  rw [readMes_eq]
  rfl

def Unfilled (m : ProtocolManager) : Prop :=
  ∀ fd p, m.undoProtols fd = some p → p.Unfilled

variable {m : ProtocolManager}

theorem Unfilled.current (h : m.Unfilled) (fd : Int) (raw : HeadMsg)
    : (m.current fd raw).Unfilled := by
  cases hfound : m.undoProtols fd with
  | none =>
    rw [current_of_none raw hfound]
    apply Protocol.unfilled_new
  | some p =>
    rw [current_of_some raw hfound]
    apply h fd p hfound

theorem Unfilled.readMes (h : m.Unfilled) (fd : Int) (readBuf : Buffer) (raw : HeadMsg)
    (around : Int → Byte) : (m.readMes fd readBuf raw around).2.1.Unfilled := by
  intro fd' p hp
  rw [readMes_eq] at hp
  simp only at hp
  by_cases heq : fd' = fd
  . subst heq
    rw [Function.update_self] at hp
    split at hp
    . cases hp
    . cases hp
      apply Protocol.unfilled_create (h.current fd' raw)
  . rw [Function.update_of_ne heq] at hp
    apply h fd' p hp

theorem Unfilled.consumed_le (h : m.Unfilled) (fd : Int) {readBuf : Buffer}
    (hbuf : readBuf.Bounded) (raw : HeadMsg) (around : Int → Byte)
    : m.consumed fd readBuf raw around ≤ readBuf.unread.length := by
  have hle := Protocol.create_le (h.current fd raw) hbuf.length_unread_lt
    (memory readBuf around)
  rw [consumed_eq]
  omega

end ProtocolManager

namespace Server

section

variable (raw : HeadMsg) {s s' : Server} {fd : Int}

theorem step_new {heap : Int → Byte} (h : step raw s (.new fd heap) = some s')
    : s.connections fd = none ∧
        s' = ⟨Function.update s.connections fd (some (Connection.new heap)), s.protocols⟩ := by
  cases hfd : s.connections fd with
  | none =>
    simp only [step, hfd, Option.some.injEq] at h
    exact ⟨rfl, h.symm⟩
  | some c => simp [step, hfd] at h

theorem step_read {a : Arrival} (h : step raw s (.read fd a) = some s')
    : ∃ c, s.connections fd = some c ∧ a.chunk.length ≤ c.readBuf.disWrite.size ∧
        s' = ⟨Function.update s.connections fd (some (c.receive s.protocols fd raw a).1),
          (c.receive s.protocols fd raw a).2⟩ := by
  cases hfd : s.connections fd with
  | none => simp [step, hfd] at h
  | some c =>
    simp only [step, hfd] at h
    split at h
    . next hchunk => exact ⟨c, rfl, hchunk.2, (Option.some.inj h).symm⟩
    . cases h

theorem step_close (h : step raw s (.close fd) = some s')
    : ∃ c, s.connections fd = some c ∧
        s' = ⟨Function.update s.connections fd none, s.protocols⟩ := by
  cases hfd : s.connections fd with
  | none => simp [step, hfd] at h
  | some c =>
    simp only [step, hfd, Option.some.injEq] at h
    exact ⟨c, rfl, h.symm⟩

end

structure Sound (s : Server) : Prop where
  unfilled : s.protocols.Unfilled
  valid : ∀ fd c, s.connections fd = some c → c.readBuf.Valid

theorem sound_init : Sound init where
  unfilled _ _ h := by cases h
  valid _ _ h := by cases h

variable {s s' : Server}

theorem Sound.consumed_le (h : Sound s) {fd : Int} {c : Connection}
    (hfd : s.connections fd = some c)
    {a : Arrival} (hfit : a.chunk.length ≤ c.readBuf.disWrite.size) (raw : HeadMsg)
    : s.protocols.consumed fd (c.readBuf.receive a.chunk) raw a.around
        ≤
      (c.readBuf.receive a.chunk).unread.length :=
  h.unfilled.consumed_le fd ((h.valid fd c hfd).receive hfit).bounded raw a.around

theorem Sound.receive (h : Sound s) {fd : Int} {c : Connection} (hfd : s.connections fd = some c)
    {a : Arrival} (hfit : a.chunk.length ≤ c.readBuf.disWrite.size) (raw : HeadMsg)
    : (c.receive s.protocols fd raw a).1.readBuf.Valid := by
  have hle := h.consumed_le hfd hfit raw
  unfold Connection.receive
  simp only
  rw [ProtocolManager.readMes_buffer]
  apply ((h.valid fd c hfd).receive hfit).eraseData hle

theorem valid_update {connections : Int → Option Connection}
    (h : ∀ fd c, connections fd = some c → c.readBuf.Valid) {fd : Int} {new : Option Connection}
    (hnew : ∀ c, new = some c → c.readBuf.Valid)
    : ∀ fd' c, Function.update connections fd new fd' = some c → c.readBuf.Valid := by
  intro fd' c hc
  by_cases heq : fd' = fd
  . subst heq
    rw [Function.update_self] at hc
    apply hnew c hc
  . rw [Function.update_of_ne heq] at hc
    apply h fd' c hc

theorem Sound.step {raw : HeadMsg} {e : Event} (h : Sound s) (hstep : step raw s e = some s')
    : Sound s' := by
  cases e with
  | read fd a =>
    rcases step_read raw hstep with ⟨c, hfd, hfit, hs'⟩
    subst hs'
    refine ⟨h.unfilled.readMes fd _ raw _, valid_update h.valid ?_⟩
    intro c' hc'
    cases hc'
    apply h.receive hfd hfit raw
  | new fd heap =>
    rw [(step_new raw hstep).2]
    refine ⟨h.unfilled, valid_update h.valid ?_⟩
    intro c hc
    cases hc
    exact Buffer.valid_new _ (by decide) (by decide)
  | close fd =>
    rcases step_close raw hstep with ⟨_, _, hs'⟩
    subst hs'
    exact ⟨h.unfilled, valid_update h.valid fun _ hc => by cases hc⟩

theorem sound_of_run {es : List (HeadMsg × Event)} (h : Run Step Run.Always init es s) : Sound s :=
  h.invariant sound_init fun _ _ _ hs _ hstep => hs.step hstep

/--
A call reports at most the bytes it was shown as read. So no bytes of a peer let a read of a server
run into the assertion of `eraseData`.
-/
theorem erase_safe
    : (∀ (raw : HeadMsg) (calls : List (List Byte × Memory)) (view : List Byte) (mem : Memory),
        view.length < 2 ^ 31 →
        max ((Protocol.createAll (.new raw) calls).create view mem).1 0 ≤ view.length)
        ∧
      (∀ (es : List (HeadMsg × Event)) (s s' : Server) (raw : HeadMsg) (fd : Int) (a : Arrival),
        Run Step Run.Always init es s →
        step raw s (.read fd a) = some s' →
        ∃ c, s.connections fd = some c ∧
          let readBuf := c.readBuf.receive a.chunk
          let len := s.protocols.consumed fd readBuf raw a.around
          (s.protocols.readMes fd readBuf raw a.around).2.2 = readBuf.eraseData len ∧
          readBuf.EraseFits len) := by
  constructor
  . intro raw calls view mem hview
    apply Protocol.create_le (Protocol.unfilled_createAll (Protocol.unfilled_new raw) calls) hview
  . intro es s s' raw fd a hrun hstep
    have hsound := sound_of_run hrun
    rcases step_read raw hstep with ⟨c, hfd, hfit, _⟩
    refine ⟨c, hfd, ProtocolManager.readMes_buffer _ _ _ _ _, ?_⟩
    apply ((hsound.valid fd c hfd).receive hfit).bounded.eraseFits
    apply hsound.consumed_le hfd hfit raw

def zeros : HeadMsg where
  msgStr _ := 0

def arrival (chunk : List Byte) : Arrival where
  chunk := chunk
  around _ := 0

-- a header that announces the content length 0005
def header : List Byte :=
  [0xcc, 15, 15, 1, 1, 0, 1, 0, 7, 0, 0, 48, 48, 48, 53]

theorem erase_safe_header
    : (∃ view : List Byte, view.length < 2 ^ 31 ∧
        let mem : Memory := ⟨fun _ => 0, fun _ => 0⟩
        max ((Protocol.createAll (.new zeros) []).create view mem).1 0 ≤ view.length)
        ∧
      (∃ s s' c, Run Step Run.Always init [(zeros, .new 5 fun _ => 0)] s ∧
        step zeros s (.read 5 (arrival header)) = some s' ∧
        s.connections 5 = some c ∧
        let readBuf := c.readBuf.receive header
        readBuf.EraseFits (s.protocols.consumed 5 readBuf zeros fun _ => 0)) := by
  constructor
  . have hlen : header.length < 2 ^ 31 := by decide
    exact ⟨header, hlen, erase_safe.1 zeros [] header _ hlen⟩
  . have hread : ((step zeros init (.new 5 fun _ => 0)).bind
        (step zeros · (.read 5 (arrival header)))).isSome := by
      decide +kernel
    rcases Option.isSome_iff_exists.mp hread with ⟨s', hs'⟩
    rcases Option.bind_eq_some_iff.mp hs' with ⟨s, hnew, hread⟩
    have hrun : Run Step Run.Always init [(zeros, .new 5 fun _ => 0)] s :=
      .snoc .nil trivial hnew
    rcases erase_safe.2 _ s s' zeros 5 (arrival header) hrun hread with ⟨c, hc, _, hfits⟩
    exact ⟨s, s', c, hrun, hread, hc, hfits⟩

end Server
end Fish
