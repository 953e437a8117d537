import FishRpc.Net.Lemmas.UringEffects

/-!
This module contains the handles in the tasks of the channels. Since `addNewFd` assigns to a copy,
no task ever holds one, and every handle that is resumed or destroyed is null.
-/

namespace Fish
namespace Uring

-- every task holds the coroutine of its channel, and no other handle has been used
structure Owned (s : Uring) : Prop where
  task : ∀ c < s.next, (s.channels c).task.handler = some c
  handles : ∀ u ∈ s.handles, u.2 = some u.1

structure NullTasks (s : Uring) : Prop where
  task : ∀ c, (s.channels c).task.handler = none
  handles : ∀ u ∈ s.handles, u.1 < s.next ∧ u.2 = none

def Event.opens : Event → Bool
  | .addNewFd _ _ => true
  | _ => false

theorem nullTasks_init (queueSize : Nat) : NullTasks (init queueSize) where
  task _ := rfl
  handles := by simp [init]

theorem NullTasks.congr {s s' : Uring} (h : NullTasks s) (hnext : s'.next = s.next)
    (htask : ∀ c, (s'.channels c).task = (s.channels c).task) (hhandles : s'.handles = s.handles)
    : NullTasks s' where
  task c := by
    rw [htask c]
    apply h.task c
  handles := by
    rw [hhandles, hnext]
    apply h.handles

theorem NullTasks.quiet {s s' : Uring} {c : ChannelId} (h : NullTasks s) (hc : c < s.next)
    (hquiet : Quiet c s s') : NullTasks s' where
  task c' := by
    rw [hquiet.task c']
    apply h.task c'
  handles u hu := by
    rcases hquiet.handles with ⟨n, hn⟩
    rw [hn] at hu
    rw [hquiet.next]
    rcases List.mem_append.mp hu with hold | hnew
    . apply h.handles u hold
    . rw [List.eq_of_mem_replicate hnew]
      exact ⟨hc, h.task c⟩

theorem NullTasks.complete {s s' : Uring} (h : NullTasks s) (hinv : Inv s) {e : Completion}
    (hindex : e.index < s.ring.length) (hstep : s.complete e = .ok s')
    : NullTasks s' ∧ s'.next = s.next := by
  rcases complete_cases hinv hindex hstep with ⟨r, hr, hcases⟩
  have hfresh := hinv.fresh _ _ (hinv.ring r (List.mem_of_getElem? hr)).1
  have hwithout : NullTasks (s.without e.index) := h.congr rfl (fun _ => rfl) rfl
  have hwritten : NullTasks ((s.without e.index).written r e) :=
    hwithout.congr rfl (written_task (s.without e.index) r e) rfl
  rcases hcases with hread | hrequeued | hfreed
  . rcases hread with ⟨_, _, s₁, hquiet, hs'⟩
    rw [hs']
    exact ⟨(hwithout.quiet hfresh hquiet).congr rfl (fun _ => rfl) rfl, hquiet.next⟩
  . rcases hrequeued with ⟨_, _, fd, buf, size, _, _, hs'⟩
    rw [hs']
    exact ⟨hwritten.congr rfl (fun _ => rfl) rfl, rfl⟩
  . rcases hfreed with ⟨_, _, s₁, hquiet, hs'⟩
    rw [hs']
    exact ⟨(hwritten.quiet hfresh hquiet).congr rfl (fun _ => rfl) rfl, hquiet.next⟩

theorem NullTasks.addNewFd {s s' : Uring} (h : NullTasks s) {fd : Int} {heap : Int → Byte}
    (hstep : s.addNewFd fd heap = .ok s') : NullTasks s' ∧ s'.next = s.next + 1 := by
  rw [addNewFd_cases hstep]
  refine ⟨⟨?_, ?_⟩, rfl⟩
  . intro c
    by_cases hc : c = s.next
    . simp [addReadRequest, opened, Channel.new, hc]
    . simpa [addReadRequest, opened, hc] using h.task c
  . intro u hu
    have hold := h.handles u hu
    exact ⟨Nat.lt_succ_of_lt hold.1, hold.2⟩

theorem NullTasks.send {s : Uring} (h : NullTasks s) (c : ChannelId) (view : List Byte)
    (heap : Int → Byte) : NullTasks (s.send c view heap) ∧ (s.send c view heap).next = s.next := by
  rw [send_eq]
  split
  . exact ⟨h.congr rfl (fun _ => rfl) rfl, rfl⟩
  . refine ⟨h.congr rfl ?_ rfl, rfl⟩
    intro c'
    by_cases hc : c' = c
    . rw [hc, sent_channels_self]
    . rw [sent_channels_of_ne s view heap hc]

theorem NullTasks.step {s s' : Uring} (h : NullTasks s) (hinv : Inv s) {e : Event}
    (hstep : Step s e s') : NullTasks s' ∧ s'.next = s.next + if e.opens then 1 else 0 := by
  rcases hstep with ⟨henabled, hstep⟩
  cases e with
  | addNewFd fd heap => exact h.addNewFd hstep
  | send c view heap =>
    cases hstep
    apply h.send c view heap
  | beginRecv =>
    rcases beginRecv_cases hstep with ⟨rs, _, _, hs'⟩
    rw [hs']
    exact ⟨h.congr rfl (fun _ => rfl) rfl, rfl⟩
  | beginSend =>
    rcases beginSend_cases hstep with ⟨rs, _, _, hs'⟩
    rw [hs']
    exact ⟨h.congr rfl (fun _ => rfl) rfl, rfl⟩
  | complete e => exact h.complete hinv henabled hstep

theorem nullTasks_of_run {queueSize : Nat} {es : List Event} {s : Uring}
    (h : Run Step Run.Always (init queueSize) es s)
    : NullTasks s ∧ s.next = es.countP Event.opens := by
  induction h with
  | nil => exact ⟨nullTasks_init queueSize, rfl⟩
  | @snoc es s s' e hrun _ hstep ih =>
    have hnew := ih.1.step (inv_of_run hrun) hstep
    refine ⟨hnew.1, ?_⟩
    rw [hnew.2]
    rw [ih.2]
    rw [List.countP_append, List.countP_singleton]

/--
The tasks hold the coroutines of their channels in exactly the runs that open no connection.
-/
theorem owned_iff_noneOpens (queueSize : Nat) (es : List Event) (s : Uring)
    (h : Run Step Run.Always (init queueSize) es s)
    : Owned s ↔ ∀ e ∈ es, ¬e.opens := by
  rcases nullTasks_of_run h with ⟨hnull, hnext⟩
  rw [← List.countP_eq_zero]
  rw [← hnext]
  constructor
  . intro howned
    rcases Nat.eq_zero_or_pos s.next with hzero | hpos
    . exact hzero
    . have hfirst := howned.task 0 hpos
      rw [hnull.task 0] at hfirst
      cases hfirst
  . intro hzero
    refine ⟨?_, ?_⟩
    . intro c hc
      rw [hzero] at hc
      exact absurd hc (Nat.not_lt_zero c)
    . intro u hu
      have hlt := (hnull.handles u hu).1
      rw [hzero] at hlt
      exact absurd hlt (Nat.not_lt_zero _)

def taskRun : List Event :=
  [.addNewFd 5 zeroHeap, .beginRecv, .beginSend, completes 0 1]

theorem not_owned_firstRead
    : ¬∀ queueSize es s, Run Step Run.Always (init queueSize) es s → Owned s := by
  intro h
  have hrun : (Run.execute next? Run.Always (init 8) taskRun).map Uring.handles
      = some [(0, none)] := by decide +kernel
  rcases Option.map_eq_some_iff.mp hrun with ⟨s, hs, hhandles⟩
  have howned := h 8 taskRun s (Run.of_execute step_of_next? hs)
  have hused := howned.handles (0, none) (by simp [hhandles])
  cases hused

theorem owned_iff_noneOpens_firstRead
    : ∃ s, Run Step Run.Always (init 8) taskRun s ∧ ¬Owned s := by
  have hrun : (Run.execute next? Run.Always (init 8) taskRun).isSome = true := by decide +kernel
  rcases Option.isSome_iff_exists.mp hrun with ⟨s, hs⟩
  have hs := Run.of_execute step_of_next? hs
  refine ⟨s, hs, ?_⟩
  intro howned
  exact (owned_iff_noneOpens 8 taskRun s hs).mp howned _ (List.mem_cons_self ..) rfl

end Uring
end Fish
