import FishRpc.Lib.Run
import FishRpc.Net.Lemmas.UringStep

/-!
This module contains the bookkeeping of the io_uring loop in every state that a run reaches.
-/

namespace Fish
namespace Uring

structure Consistent (s : Uring) : Prop where
  recvQue : ∀ fd ∈ s.recvQue, ∃ c, s.connections fd = some c
  sendQue : ∀ q ∈ s.sendQue, s.connections q.fd = some q.buf.channel
  ring : ∀ r ∈ s.ring, s.connections r.clientSocket = some r.channel
  oneRead : ∀ fd c, s.connections fd = some c → s.reads fd ≤ 1
  sendFlag : ∀ fd c, s.connections fd = some c → (s.channels c).sendFlag = s.writes fd
  removedOnce : (s.removed.map Removal.channel).Nodup
  removedIdle : ∀ x ∈ s.removed, x.outstanding = 0
  noFailure : ∀ e, s.Enabled e → ∃ s', s.step e = .ok s'

theorem inv_of_run {queueSize : Nat} {es : List Event} {s : Uring}
    (h : Run Step Run.Always (init queueSize) es s) : Inv s := by
  apply h.invariant (inv_init queueSize)
  exact fun s e s' hs _ hstep => hs.of_step hstep

/--
Every reachable state keeps its books, and no assertion of the next step fails.
-/
theorem consistent_of_run {queueSize : Nat} {es : List Event} {s : Uring}
    (h : Run Step Run.Always (init queueSize) es s) : Consistent s := by
  have hinv := inv_of_run h
  exact
    { recvQue := hinv.recvQue
      sendQue := hinv.sendQue
      ring := fun r hr => (hinv.ring r hr).1
      oneRead := hinv.oneRead
      sendFlag := hinv.sendFlag
      removedOnce := hinv.removedOnce
      removedIdle := hinv.removedIdle
      noFailure := by
        intro e henabled
        rcases hinv.step henabled with ⟨s', hs', _⟩
        exact ⟨s', hs'⟩ }

instance (s : Uring) (e : Event) : Decidable (s.Enabled e) :=
  match e with
  | .addNewFd _ _ => inferInstanceAs (Decidable (_ = _))
  | .send _ _ _ => inferInstanceAs (Decidable (_ = _))
  | .beginRecv => isTrue trivial
  | .beginSend => isTrue trivial
  | .complete _ => inferInstanceAs (Decidable (_ < _))

def next? (s : Uring) (e : Event) : Option Uring :=
  if s.Enabled e then (s.step e).toOption else none

theorem step_of_next? (s : Uring) (e : Event) (s' : Uring) (h : s.next? e = some s')
    : Step s e s' := by
  unfold next? at h
  split at h
  . refine ⟨by assumption, ?_⟩
    cases hstep : s.step e with
    | error _ =>
      rw [hstep] at h
      cases h
    | ok s'' =>
      rw [hstep] at h
      cases h
      rfl
  . cases h

-- request `index` ends with `res`, a receive stores sevens and the callback erases nothing
def completes (index : Nat) (res : Int) : Event :=
  .complete ⟨index, res, 0, fun _ => 7, 0⟩

def zeroHeap : Int → Byte := fun _ => 0

theorem consistent_of_run_reuse
    : ∃ s,
        Run Step Run.Always (init 8)
          [.addNewFd 5 zeroHeap, .beginRecv, completes 0 0, .addNewFd 5 zeroHeap,
            .send 1 [1, 2] zeroHeap, .beginRecv, .beginSend] s ∧
        s.removed = [⟨0, 0⟩] ∧
        Consistent s := by
  have hrun : (Run.execute next? Run.Always (init 8)
      [.addNewFd 5 zeroHeap, .beginRecv, completes 0 0, .addNewFd 5 zeroHeap,
        .send 1 [1, 2] zeroHeap, .beginRecv, .beginSend]).map Uring.removed
      = some [⟨0, 0⟩] := by decide +kernel
  rcases Option.map_eq_some_iff.mp hrun with ⟨s, hs, hremoved⟩
  have hs := Run.of_execute step_of_next? hs
  exact ⟨s, hs, hremoved, consistent_of_run hs⟩

/-! ### Iterations of the loop -/

theorem complete_of_le {s : Uring} {e : Completion} (h : s.ring.length ≤ e.index)
    : s.complete e = .ok s := by
  unfold complete
  rw [List.getElem?_eq_none h]

theorem Inv.foldlM_complete {s : Uring} (h : Inv s) (cqes : List Completion)
    : ∃ es s', cqes.foldlM Uring.complete s = .ok s' ∧ Run Step Run.Always s es s' ∧ Inv s' := by
  induction cqes generalizing s with
  | nil => exact ⟨[], s, rfl, .nil, h⟩
  | cons e cqes ih =>
    rw [List.foldlM_cons]
    rcases Nat.lt_or_ge e.index s.ring.length with hindex | hindex
    . have henabled : s.Enabled (.complete e) := hindex
      rcases h.step henabled with ⟨s₁, hstep, hinv⟩
      rcases ih hinv with ⟨es, s', hrest, hrun, hinv'⟩
      have hcomplete : s.complete e = .ok s₁ := hstep
      rw [hcomplete]
      exact ⟨_, s', hrest, Run.append (.snoc .nil trivial ⟨henabled, hstep⟩) hrun, hinv'⟩
    . rw [complete_of_le hindex]
      apply ih h

/--
From every reachable state an iteration of the loop succeeds, and it is a run of atomic steps.
-/
theorem eventLoop_of_run {queueSize : Nat} {es : List Event} {s : Uring}
    (h : Run Step Run.Always (init queueSize) es s) (cqes : List Completion)
    : ∃ es' s', s.eventLoop cqes = .ok s' ∧
        Run Step Run.Always (init queueSize) (es ++ es') s' := by
  rcases (inv_of_run h).foldlM_complete cqes with ⟨es', s₁, hcomplete, hrun, hinv₁⟩
  have henabled₁ : s₁.Enabled .beginRecv := trivial
  rcases hinv₁.step henabled₁ with ⟨s₂, hrecv, hinv₂⟩
  have henabled₂ : s₂.Enabled .beginSend := trivial
  rcases hinv₂.step henabled₂ with ⟨s', hsend, _⟩
  have hiteration := Run.snoc (.snoc hrun trivial ⟨henabled₁, hrecv⟩) trivial ⟨henabled₂, hsend⟩
  refine ⟨_, s', ?_, h.append hiteration⟩
  have hrecv : s₁.beginRecv = .ok s₂ := hrecv
  unfold eventLoop
  rw [hcomplete]
  simp only [bind, Except.bind, hrecv]
  exact hsend

end Uring
end Fish
