import FishRpc.Net.Lemmas.UringSlots

/-!
This module contains the two request queues: requests leave a queue in the order in which they were
added. `beginRecv` and `beginSend` take requests out of a queue while they hold its mutex and submit
them one by one afterwards, so requests may be added in between.
-/

namespace Fish

-- the last fields are history: the requests added and submitted so far
structure Submission where
  uring : Uring
  tempRecv : List Int
  tempSend : List SendRequest
  addedRecv : List Int
  addedSend : List SendRequest
  submittedRecv : List Int
  submittedSend : List SendRequest

inductive QueueEvent where
  | addReadRequest (fd : Int)
  | addWriteRequest (fd : Int) (buf : Pointer) (size : Nat)
  | takeRecv
  | submitRecv
  | takeSend
  | submitSend
  | other (uring : Uring)

namespace Submission

def new (queueSize : Nat) : Submission where
  uring := Uring.init queueSize
  tempRecv := []
  tempSend := []
  addedRecv := []
  addedSend := []
  submittedRecv := []
  submittedSend := []

-- `other` is what the program does besides, it changes anything but the queues
inductive Step (s : Submission) : QueueEvent → Submission → Prop where
  | addReadRequest (fd : Int)
    : Step s (.addReadRequest fd)
        { s with uring := s.uring.addReadRequest fd, addedRecv := s.addedRecv ++ [fd] }
  | addWriteRequest (fd : Int) (buf : Pointer) (size : Nat)
    : Step s (.addWriteRequest fd buf size)
        { s with
          uring := s.uring.addWriteRequest fd buf size
          addedSend := s.addedSend ++ [⟨fd, buf, sizeToInt size⟩] }
  | takeRecv (hrecv : s.tempRecv = []) (hsend : s.tempSend = [])
    : Step s .takeRecv { s with uring := s.uring.takeRecv.2, tempRecv := s.uring.takeRecv.1 }
  | submitRecv {fd : Int} {temp : List Int} {uring : Uring} (hrecv : s.tempRecv = fd :: temp)
    (hsubmit : s.uring.submitRecv fd = .ok uring)
    : Step s .submitRecv
        { s with
          uring := uring
          tempRecv := temp
          submittedRecv := s.submittedRecv ++
            (uring.ring.drop s.uring.ring.length).map UringRequest.clientSocket }
  | takeSend (hrecv : s.tempRecv = []) (hsend : s.tempSend = [])
    : Step s .takeSend { s with uring := s.uring.takeSend.2, tempSend := s.uring.takeSend.1 }
  | submitSend {q : SendRequest} {temp : List SendRequest} {uring : Uring}
    (hsend : s.tempSend = q :: temp) (hsubmit : s.uring.submitSend q = .ok uring)
    : Step s .submitSend
        { s with
          uring := uring
          tempSend := temp
          submittedSend := s.submittedSend ++
            (uring.ring.drop s.uring.ring.length).map Uring.queued }
  | other {uring : Uring} (hrecv : uring.recvQue = s.uring.recvQue)
    (hsend : uring.sendQue = s.uring.sendQue) : Step s (.other uring) { s with uring := uring }

-- every request is submitted, about to be submitted or queued, in this order
structure Inv (s : Submission) : Prop where
  recv : s.submittedRecv ++ s.tempRecv ++ s.uring.recvQue = s.addedRecv
  send : s.submittedSend ++ s.tempSend ++ s.uring.sendQue = s.addedSend

variable {s s' : Submission} {e : QueueEvent}

theorem Inv.takeRecv (h : Inv s) (hrecv : s.tempRecv = [])
    : Inv { s with uring := s.uring.takeRecv.2, tempRecv := s.uring.takeRecv.1 } := by
  have hqueue := h.recv
  rw [hrecv, List.append_nil] at hqueue
  rw [Uring.takeRecv_eq]
  refine ⟨?_, h.send⟩
  simp only
  rw [List.append_assoc]
  rw [List.take_append_drop]
  exact hqueue

theorem Inv.takeSend (h : Inv s) (hsend : s.tempSend = [])
    : Inv { s with uring := s.uring.takeSend.2, tempSend := s.uring.takeSend.1 } := by
  have hqueue := h.send
  rw [hsend, List.append_nil] at hqueue
  rw [Uring.takeSend_eq]
  refine ⟨h.recv, ?_⟩
  simp only
  rw [List.append_assoc]
  rw [List.take_append_drop]
  exact hqueue

theorem Inv.of_step (h : Inv s) (hstep : Step s e s') : Inv s' := by
  cases hstep with
  | addReadRequest fd =>
    refine ⟨?_, h.send⟩
    show s.submittedRecv ++ s.tempRecv ++ (s.uring.recvQue ++ [fd]) = _
    rw [← List.append_assoc]
    rw [h.recv]
  | addWriteRequest fd buf size =>
    refine ⟨h.recv, ?_⟩
    show s.submittedSend ++ s.tempSend ++ (s.uring.sendQue ++ [_]) = _
    rw [← List.append_assoc]
    rw [h.send]
  | takeRecv hrecv _ => apply h.takeRecv hrecv
  | @submitRecv fd temp uring hrecv hsubmit =>
    rcases Uring.submitRecv_cases hsubmit with ⟨r, huring, hfd, _⟩
    have hqueue := h.recv
    rw [hrecv] at hqueue
    rw [huring]
    refine ⟨?_, h.send⟩
    simp only [Uring.submitted, List.drop_left, List.map_cons, List.map_nil, hfd]
    simpa using hqueue
  | takeSend _ hsend => apply h.takeSend hsend
  | @submitSend q temp uring hsend hsubmit =>
    rcases Uring.submitSend_cases hsubmit with ⟨r, huring, hq, _⟩
    have hqueue := h.send
    rw [hsend] at hqueue
    rw [huring]
    refine ⟨h.recv, ?_⟩
    simp only [Uring.submitted, List.drop_left, List.map_cons, List.map_nil, hq]
    simpa using hqueue
  | other hrecv hsend =>
    refine ⟨?_, ?_⟩
    . rw [hrecv]
      exact h.recv
    . rw [hsend]
      exact h.send

theorem inv_new (queueSize : Nat) : Inv (new queueSize) :=
  ⟨rfl, rfl⟩

theorem length_takeRecv (uring : Uring) : uring.takeRecv.1.length = uring.slotsForRecv := by
  rw [Uring.takeRecv_eq]
  apply List.length_take_of_le (Nat.min_le_left _ _)

theorem length_takeSend (uring : Uring) : uring.takeSend.1.length = uring.slotsForSend := by
  rw [Uring.takeSend_eq]
  apply List.length_take_of_le (Nat.min_le_left _ _)

/--
Requests are submitted in the order in which they were added. Those that have not been submitted are
about to be or still queued, and each `beginRecv` or `beginSend` takes as many of them as there are
free slots.
-/
theorem submitted_in_order (queueSize : Nat) (es : List QueueEvent) (s : Submission)
    (h : Run Step Run.Always (new queueSize) es s)
    : s.submittedRecv ++ s.tempRecv ++ s.uring.recvQue = s.addedRecv ∧
      s.submittedSend ++ s.tempSend ++ s.uring.sendQue = s.addedSend ∧
      (∀ s', Step s .takeRecv s' →
        s'.tempRecv.length = min s.uring.freeNum s.uring.recvQue.length) ∧
      (∀ s', Step s .takeSend s' →
        s'.tempSend.length = min s.uring.freeNum s.uring.sendQue.length) := by
  have hinv : Inv s := h.invariant (inv_new queueSize) fun s e s' hs _ hstep => hs.of_step hstep
  refine ⟨hinv.recv, hinv.send, ?_, ?_⟩
  . intro s' hstep
    cases hstep
    rw [Nat.min_comm]
    apply length_takeRecv
  . intro s' hstep
    cases hstep
    rw [Nat.min_comm]
    apply length_takeSend

theorem submitted_in_order_partial
    : ∃ s : Submission, s.addedRecv = [5, 6] ∧ s.tempRecv = [] ∧ s.uring.recvQue = [6] ∧
        s.submittedRecv ++ s.tempRecv ++ s.uring.recvQue = s.addedRecv := by
  let uring : Uring :=
    { Uring.init 2 with
      connections := fun _ => some 0
      channels := fun _ => Channel.new 5 1024 Uring.zeroHeap }
  have hrun : Run Step Run.Always (new 2)
      [.other uring, .addReadRequest 5, .addReadRequest 6, .takeRecv, .submitRecv] _ :=
    .snoc (.snoc (.snoc (.snoc (.snoc .nil trivial (.other rfl rfl)) trivial (.addReadRequest 5))
      trivial (.addReadRequest 6)) trivial (.takeRecv rfl rfl)) trivial (.submitRecv rfl rfl)
  exact ⟨_, rfl, rfl, rfl, (submitted_in_order 2 _ _ hrun).1⟩

/-! ### Whole calls -/

theorem run_submitRecv {temp : List Int} {uring : Uring} (hrecv : s.tempRecv = temp)
    (h : temp.foldlM Uring.submitRecv s.uring = .ok uring)
    : ∃ s', Run Step Run.Always s (List.replicate temp.length .submitRecv) s' ∧
        s'.uring = uring ∧ s'.tempRecv = [] ∧ s'.submittedRecv = s.submittedRecv ++ temp := by
  induction temp generalizing s with
  | nil =>
    cases h
    exact ⟨s, .nil, rfl, hrecv, (List.append_nil _).symm⟩
  | cons fd temp ih =>
    rw [List.foldlM_cons] at h
    rcases Uring.ok_of_bind h with ⟨uring₁, hsubmit, hrest⟩
    rcases Uring.submitRecv_cases hsubmit with ⟨r, huring, hfd, _⟩
    let s₁ : Submission :=
      { s with
        uring := uring₁
        tempRecv := temp
        submittedRecv :=
          s.submittedRecv ++ (uring₁.ring.drop s.uring.ring.length).map UringRequest.clientSocket }
    have hone : Step s .submitRecv s₁ := .submitRecv hrecv hsubmit
    rcases ih (s := s₁) rfl hrest with ⟨s', hrun, hs', htemp, hsubmitted⟩
    refine ⟨s', (Run.single hone).append hrun, hs', htemp, ?_⟩
    rw [hsubmitted]
    simp [s₁, huring, Uring.submitted, hfd]

theorem run_submitSend {temp : List SendRequest} {uring : Uring} (hsend : s.tempSend = temp)
    (h : temp.foldlM Uring.submitSend s.uring = .ok uring)
    : ∃ s', Run Step Run.Always s (List.replicate temp.length .submitSend) s' ∧
        s'.uring = uring ∧ s'.tempSend = [] ∧ s'.submittedSend = s.submittedSend ++ temp := by
  induction temp generalizing s with
  | nil =>
    cases h
    exact ⟨s, .nil, rfl, hsend, (List.append_nil _).symm⟩
  | cons q temp ih =>
    rw [List.foldlM_cons] at h
    rcases Uring.ok_of_bind h with ⟨uring₁, hsubmit, hrest⟩
    rcases Uring.submitSend_cases hsubmit with ⟨r, huring, hq, _⟩
    let s₁ : Submission :=
      { s with
        uring := uring₁
        tempSend := temp
        submittedSend :=
          s.submittedSend ++ (uring₁.ring.drop s.uring.ring.length).map Uring.queued }
    have hone : Step s .submitSend s₁ := .submitSend hsend hsubmit
    rcases ih (s := s₁) rfl hrest with ⟨s', hrun, hs', htemp, hsubmitted⟩
    refine ⟨s', (Run.single hone).append hrun, hs', htemp, ?_⟩
    rw [hsubmitted]
    simp [s₁, huring, Uring.submitted, hq]

/--
A `beginRecv` that nothing interleaves with is a run that takes requests and submits all of them.
-/
theorem run_of_beginRecv {uring : Uring} (hrecv : s.tempRecv = []) (hsend : s.tempSend = [])
    (h : s.uring.beginRecv = .ok uring)
    : ∃ es s', Run Step Run.Always s (.takeRecv :: es) s' ∧ s'.uring = uring ∧ s'.tempRecv = [] ∧
        s'.submittedRecv = s.submittedRecv ++ s.uring.takeRecv.1 := by
  let s₁ : Submission := { s with uring := s.uring.takeRecv.2, tempRecv := s.uring.takeRecv.1 }
  have htake : Step s .takeRecv s₁ := .takeRecv hrecv hsend
  rcases run_submitRecv (s := s₁) rfl h with ⟨s', hrun, hs'⟩
  exact ⟨_, s', (Run.single htake).append hrun, hs'⟩

theorem run_of_beginSend {uring : Uring} (hrecv : s.tempRecv = []) (hsend : s.tempSend = [])
    (h : s.uring.beginSend = .ok uring)
    : ∃ es s', Run Step Run.Always s (.takeSend :: es) s' ∧ s'.uring = uring ∧ s'.tempSend = [] ∧
        s'.submittedSend = s.submittedSend ++ s.uring.takeSend.1 := by
  let s₁ : Submission := { s with uring := s.uring.takeSend.2, tempSend := s.uring.takeSend.1 }
  have htake : Step s .takeSend s₁ := .takeSend hrecv hsend
  rcases run_submitSend (s := s₁) rfl h with ⟨s', hrun, hs'⟩
  exact ⟨_, s', (Run.single htake).append hrun, hs'⟩

end Submission
end Fish
