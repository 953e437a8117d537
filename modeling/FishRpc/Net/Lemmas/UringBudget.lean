import FishRpc.Net.Lemmas.UringQueue

/-!
This module contains the submission ring of the loop. Each request that `beginRecv` or `beginSend`
takes from its queue costs a call of `io_uring_get_sqe`, and `io_uring_submit` hands the entries
prepared so far over to the kernel, which completes only requests it has been given.
-/

namespace Fish

-- `prepared` counts the entries since the last `io_uring_submit`
structure Submitting where
  uring : Uring
  prepared : Nat

inductive SubmitEvent where
  | event (e : Uring.Event)
  | submit

namespace Submitting

def new (queueSize : Nat) : Submitting where
  uring := Uring.init queueSize
  prepared := 0

-- `io_uring_get_sqe` returns a null pointer when all entries are prepared
def getSqe (entries prepared : Nat) : Option Nat :=
  if prepared < entries then some prepared else none

-- the calls of `io_uring_get_sqe`, one for each request that was taken from a queue
def calls (s : Submitting) : Uring.Event → Nat
  | .beginRecv => s.uring.takeRecv.1.length
  | .beginSend => s.uring.takeSend.1.length
  | _ => 0

-- the requests at the end of the ring have been prepared and not been handed over
def HandedOver (s : Submitting) : Uring.Event → Prop
  | .complete e => e.index + s.prepared < s.uring.ring.length
  | _ => True

def Step (s : Submitting) : SubmitEvent → Submitting → Prop
  | .event e, s' =>
    s.HandedOver e ∧ s.uring.Step e s'.uring ∧ s'.prepared = s.prepared + s.calls e
  | .submit, s' => s' = { s with prepared := 0 }

structure Inv (queueSize : Nat) (s : Submitting) : Prop where
  uring : s.uring.Inv
  prepared : s.prepared ≤ s.uring.ring.length
  slots : s.uring.slots ≤ queueSize - 1

theorem inv_new (queueSize : Nat) : Inv queueSize (new queueSize) where
  uring := Uring.inv_init queueSize
  prepared := Nat.le_refl 0
  slots := Nat.le_refl _

variable {queueSize : Nat} {s s' : Submitting} {uring : Uring} {e : Uring.Event}

-- a completion removes the only request that leaves the ring in a step
def completed : Uring.Event → Nat
  | .complete _ => 1
  | _ => 0

theorem length_ring_complete {e : Uring.Completion} (hinv : s.uring.Inv)
    (hindex : e.index < s.uring.ring.length) (h : s.uring.complete e = .ok uring)
    : uring.ring.length + 1 = s.uring.ring.length := by
  rw [← Uring.length_without hindex]
  rcases Uring.complete_cases hinv hindex h with ⟨r, _, hread | hrequeued | hfreed⟩
  . rcases hread with ⟨_, _, uring₁, hquiet, huring⟩
    rw [huring]
    exact congrArg (fun ring => ring.length + 1) hquiet.ring
  . rcases hrequeued with ⟨_, _, fd, buf, size, _, _, huring⟩
    rw [huring]
    rfl
  . rcases hfreed with ⟨_, _, uring₁, hquiet, huring⟩
    rw [huring]
    exact congrArg (fun ring => ring.length + 1) hquiet.ring

theorem length_ring_append {β : Type} {rs : List UringRequest} {request : UringRequest → β}
    {queue : List β} (h : rs.map request = queue) (ring : List UringRequest)
    : (ring ++ rs).length = ring.length + queue.length := by
  rw [← h, List.length_append, List.length_map]

theorem length_ring_step (hinv : s.uring.Inv) (h : s.uring.Step e uring)
    : uring.ring.length + completed e = s.uring.ring.length + s.calls e := by
  rcases h with ⟨henabled, hstep⟩
  cases e with
  | addNewFd fd heap =>
    rw [Uring.addNewFd_cases hstep]
    rfl
  | send c view heap =>
    cases hstep
    rw [Uring.send_eq]
    split
    . rfl
    . rfl
  | beginRecv =>
    rcases Uring.beginRecv_cases hstep with ⟨rs, htake, _, huring⟩
    rw [huring]
    show (s.uring.ring ++ rs).length = s.uring.ring.length + s.uring.takeRecv.1.length
    rw [Uring.takeRecv_eq]
    apply length_ring_append htake
  | beginSend =>
    rcases Uring.beginSend_cases hstep with ⟨rs, htake, _, huring⟩
    rw [huring]
    show (s.uring.ring ++ rs).length = s.uring.ring.length + s.uring.takeSend.1.length
    rw [Uring.takeSend_eq]
    apply length_ring_append htake
  | complete e => apply length_ring_complete hinv henabled hstep

theorem calls_le (s : Submitting) (e : Uring.Event) : s.calls e ≤ s.uring.freeNum := by
  cases e with
  | beginRecv =>
    show s.uring.takeRecv.1.length ≤ _
    rw [Submission.length_takeRecv]
    apply Nat.min_le_right
  | beginSend =>
    show s.uring.takeSend.1.length ≤ _
    rw [Submission.length_takeSend]
    apply Nat.min_le_right
  | addNewFd | send | complete => apply Nat.zero_le

theorem slots_le (hinv : s.uring.Inv) (h : s.uring.Step e uring) : uring.slots ≤ s.uring.slots := by
  rcases Classical.em (s.uring.FreesSlot e) with hfrees | hlost
  . apply Nat.le_of_eq ((Uring.slots_step hinv h).1 hfrees)
  . apply Nat.le_of_lt ((Uring.slots_step hinv h).2 hlost)

-- a step that takes slots takes one for each call, and all others take none
theorem freeNum_le (hinv : s.uring.Inv) (h : s.uring.Step e uring)
    : s.uring.freeNum ≤ uring.freeNum + s.calls e := by
  have hring := length_ring_step hinv h
  have hslots : s.uring.slots ≤ uring.slots + completed e := by
    cases e with
    | complete e =>
      rcases Uring.slots_complete hinv h.1 h.2 with ⟨hfrees, hlost⟩
      rcases Classical.em (s.uring.Requeues e) with hrequeues | hkeep
      . apply Nat.le_of_eq (hlost hrequeues).symm
      . rw [hfrees hkeep]
        apply Nat.le_succ
    | addNewFd | send | beginRecv | beginSend =>
      apply Nat.le_of_eq ((Uring.slots_step hinv h).1 trivial).symm
  unfold Uring.slots at hslots
  omega

theorem Inv.of_step {e : SubmitEvent} (h : Inv queueSize s) (hstep : Step s e s')
    : Inv queueSize s' := by
  cases e with
  | event e =>
    rcases hstep with ⟨hover, hstep, hprepared⟩
    refine ⟨h.uring.of_step hstep, ?_, Nat.le_trans (slots_le h.uring hstep) h.slots⟩
    have hring := length_ring_step h.uring hstep
    have hold := h.prepared
    rw [hprepared]
    cases e with
    | complete e =>
      have hover : e.index + s.prepared < s.uring.ring.length := hover
      have hring : s'.uring.ring.length + 1 = s.uring.ring.length + 0 := hring
      show s.prepared + 0 ≤ _
      omega
    | _ =>
      simp only [completed] at hring
      omega
  | submit =>
    rw [hstep]
    exact ⟨h.uring, Nat.zero_le _, h.slots⟩

/--
Between two submissions the loop prepares fewer than `queue_size` entries, no more requests are ever
in flight, no call of `io_uring_get_sqe` returns a null pointer and `freeNum_` does not wrap.
-/
theorem prepared_lt (queueSize entries : Nat) (hpos : 1 ≤ queueSize)
    (hentries : queueSize ≤ entries) (es : List SubmitEvent) (s : Submitting)
    (h : Run Step Run.Always (new queueSize) es s)
    : (s.prepared : Int) ≤ queueSize - 1 ∧
      (s.uring.ring.length : Int) ≤ queueSize - 1 ∧
      ∀ e s', Step s (.event e) s' →
        (∀ k < s.calls e, getSqe entries (s.prepared + k) ≠ none) ∧
        s.calls e ≤ s.uring.freeNum ∧
        s.uring.freeNum ≤ s'.uring.freeNum + s.calls e := by
  have hinv : Inv queueSize s :=
    h.invariant (inv_new queueSize) fun s e s' hs _ hstep => hs.of_step hstep
  have hprepared := hinv.prepared
  have hslots := hinv.slots
  unfold Uring.slots at hslots
  refine ⟨by omega, by omega, ?_⟩
  intro e s' hstep
  refine ⟨?_, calls_le s e, freeNum_le hinv.uring hstep.2.1⟩
  intro k hk
  have hcalls := calls_le s e
  unfold getSqe
  rw [if_pos (by omega)]
  exact Option.some_ne_none _

theorem prepared_lt_full
    : ∃ s, Run Step Run.Always (new 2)
          [.event (.addNewFd 5 Uring.zeroHeap), .event .beginRecv] s ∧
        s.prepared = 1 ∧ (s.prepared : Int) ≤ 2 - 1 := by
  have hopen : ∃ uring, (Uring.init 2).Step (.addNewFd 5 Uring.zeroHeap) uring := ⟨_, rfl, rfl⟩
  rcases hopen with ⟨uring, hopen⟩
  have hok : (Uring.init 2).addNewFd 5 Uring.zeroHeap = .ok uring := hopen.2
  have huring := Uring.addNewFd_cases hok
  have hrecv : ∃ uring', uring.Step .beginRecv uring' := by
    rw [huring]
    exact ⟨_, trivial, rfl⟩
  rcases hrecv with ⟨uring', hrecv⟩
  have hfirst : Step (new 2) (.event (.addNewFd 5 Uring.zeroHeap)) ⟨uring, 0⟩ :=
    ⟨trivial, hopen, rfl⟩
  have hsecond : Step ⟨uring, 0⟩ (.event .beginRecv) ⟨uring', 1⟩ := by
    refine ⟨trivial, hrecv, ?_⟩
    rw [huring]
    rfl
  have hrun := (Run.single hfirst).append (Run.single hsecond)
  exact ⟨_, hrun, rfl, (prepared_lt 2 2 (by decide) (by decide) _ _ hrun).1⟩

end Submitting
end Fish
