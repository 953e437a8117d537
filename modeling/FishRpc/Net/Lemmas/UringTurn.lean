import FishRpc.Net.Lemmas.Uring
import FishRpc.Net.Lemmas.UringEffects

/-!
This module contains the turns of the connections. A `READ` is queued behind those that wait, and a
submission takes requests from the front, so a connection waits for no more submissions with a free
slot than there were requests in front of its own.
-/

namespace Fish
namespace Uring

variable {s s' : Uring} {c : ChannelId} {fd : Int}

/-! ### The queue during a step -/

theorem prefix_removeFd (h : s.removeFd c = .ok s') : s.recvQue <+: s'.recvQue := by
  unfold removeFd at h
  simp only at h
  split at h
  . cases h
  . split at h
    . cases h
      exact List.prefix_refl _
    . cases h

theorem prefix_close (h : s.close c = .ok s') : s.recvQue <+: s'.recvQue := by
  unfold close at h
  split at h
  . cases h
    exact List.prefix_refl _
  . have hbehind := prefix_removeFd h
    exact hbehind

theorem prefix_reduseSend (h : s.reduseSend c = .ok s') : s.recvQue <+: s'.recvQue := by
  unfold reduseSend at h
  split at h
  . simp only at h
    split at h
    . have hbehind := prefix_close h
      exact hbehind
    . cases h
      exact List.prefix_refl _
  . cases h

theorem prefix_resume {consumed : Nat} (h : s.resume c consumed = .ok s')
    : s.recvQue <+: s'.recvQue := by
  by_cases hempty : (s.channels c).dispReadBuf.size = 0
  . rw [resume_of_empty consumed hempty] at h
    have hbehind := prefix_close h
    exact hbehind
  . rw [resume_of_unread consumed hempty] at h
    cases h
    exact List.prefix_append _ _

theorem prefix_readCompletion {r : UringRequest} {e : Completion} (h : s.readCompletion r e = .ok s')
    : s.recvQue <+: s'.recvQue := by
  cases hconnection : s.connections r.clientSocket with
  | none =>
    have herror : s.readCompletion r e = .error .connection := by
      unfold readCompletion
      simp only [modify, hconnection]
    rw [herror] at h
    cases h
  | some c =>
    rw [readCompletion_eq e hconnection] at h
    split at h
    . rcases ok_of_map h with ⟨s₁, hclose, rfl⟩
      have hbehind := prefix_close hclose
      exact hbehind
    . rcases ok_of_map h with ⟨s₁, hresume, rfl⟩
      have hbehind := prefix_resume hresume
      exact hbehind

theorem prefix_writeCompletion {r : UringRequest} {e : Completion}
    (h : s.writeCompletion r e = .ok s') : s.recvQue <+: s'.recvQue := by
  rcases writeCompletion_cases h with ⟨c, _, ⟨fd, buf, size, rfl⟩ | ⟨s₁, hreduse, rfl⟩⟩
  . exact List.prefix_refl _
  . have hbehind := prefix_reduseSend hreduse
    exact hbehind

theorem prefix_complete {e : Completion} (h : s.complete e = .ok s') : s.recvQue <+: s'.recvQue := by
  cases hr : s.ring[e.index]? with
  | none =>
    unfold complete at h
    simp only [hr] at h
    cases h
    exact List.prefix_refl _
  | some r =>
    cases htype : r.eventType with
    | read =>
      rw [complete_of_read hr htype] at h
      have hbehind := prefix_readCompletion h
      exact hbehind
    | write =>
      rw [complete_of_write hr htype] at h
      have hbehind := prefix_writeCompletion h
      exact hbehind

def Event.isBeginRecv : Event → Bool
  | .beginRecv => true
  | _ => false

theorem prefix_step {e : Event} (he : e.isBeginRecv = false) (h : Step s e s')
    : s.recvQue <+: s'.recvQue := by
  have hok := h.2
  cases e with
  | addNewFd fd heap =>
    rw [addNewFd_cases hok]
    exact List.prefix_append _ _
  | send c view heap =>
    cases hok
    unfold send
    simp only
    split
    . exact List.prefix_refl _
    . exact List.prefix_refl _
  | beginRecv => cases he
  | beginSend =>
    rcases beginSend_cases hok with ⟨rs, _, _, rfl⟩
    exact List.prefix_refl _
  | complete e => exact prefix_complete hok

-- a submission takes the request or moves it to the front
theorem beginRecv_turn (hqueued : fd ∈ s.recvQue) (h : s.beginRecv = .ok s')
    : (∃ r ∈ s'.ring, r.eventType = .read ∧ r.clientSocket = fd) ∨
        fd ∈ s'.recvQue ∧ s'.recvQue.idxOf fd + s.freeNum ≤ s.recvQue.idxOf fd := by
  rcases beginRecv_cases h with ⟨rs, htake, hrs, rfl⟩
  by_cases htaken : fd ∈ s.recvQue.take s.slotsForRecv
  . left
    rw [← htake] at htaken
    rcases List.mem_map.mp htaken with ⟨r, hr, hsocket⟩
    exact ⟨r, List.mem_append_right _ hr, (hrs r hr).eventType, hsocket⟩
  . right
    have hsplit := List.take_append_drop s.slotsForRecv s.recvQue
    have hleft : fd ∈ s.recvQue.drop s.slotsForRecv := by
      rw [← hsplit] at hqueued
      exact (List.mem_append.mp hqueued).resolve_left htaken
    have hslots : s.slotsForRecv = s.freeNum := by
      by_contra hne
      have hall : s.slotsForRecv = s.recvQue.length := by
        unfold slotsForRecv at hne ⊢
        omega
      rw [hall, List.take_length] at htaken
      exact htaken hqueued
    have hlength : (s.recvQue.take s.slotsForRecv).length = s.freeNum := by
      have hle : s.slotsForRecv ≤ s.recvQue.length := Nat.min_le_left _ _
      rw [List.length_take]
      omega
    refine ⟨hleft, ?_⟩
    have hindex : (s.recvQue.take s.slotsForRecv ++ s.recvQue.drop s.slotsForRecv).idxOf fd
        =
        (s.recvQue.take s.slotsForRecv).length + (s.recvQue.drop s.slotsForRecv).idxOf fd :=
      List.idxOf_append_of_notMem htaken
    rw [hsplit, hlength] at hindex
    rw [hindex, Nat.add_comm]

/-! ### Runs -/

-- a submission that finds a free slot
def FindsSlot (s : Uring) (e : Event) : Prop := e.isBeginRecv ∧ 0 < s.freeNum

-- a submission among the events takes the request
def Submitted (s : Uring) (es : List Event) (fd : Int) : Prop :=
  ∃ es₁ es₂ s₁ s₂,
    es = es₁ ++ .beginRecv :: es₂ ∧ Run Step Run.Always s es₁ s₁ ∧ Step s₁ .beginRecv s₂ ∧
      fd ∈ s₁.recvQue ∧ ∃ r ∈ s₂.ring, r.eventType = .read ∧ r.clientSocket = fd

theorem Submitted.concat {es : List Event} (h : Submitted s es fd) (e : Event)
    : Submitted s (es ++ [e]) fd := by
  rcases h with ⟨es₁, es₂, s₁, s₂, rfl, hrest⟩
  exact ⟨es₁, es₂ ++ [e], s₁, s₂, by simp, hrest⟩

-- a step keeps the request in its place, a submission with a free slot moves it forward
theorem turn_step {es : List Event} {s₁ s₂ : Uring} {e : Event}
    (hrun : Run Step Run.Always s es s₁) (hstep : Step s₁ e s₂) (hwaiting : fd ∈ s₁.recvQue)
    : Submitted s (es ++ [e]) fd ∨
        fd ∈ s₂.recvQue ∧ s₂.recvQue.idxOf fd ≤ s₁.recvQue.idxOf fd ∧
          (s₁.FindsSlot e → s₂.recvQue.idxOf fd < s₁.recvQue.idxOf fd) := by
  cases he : e.isBeginRecv with
  | true =>
    cases e with
    | beginRecv =>
      rcases beginRecv_turn hwaiting hstep.2 with hring | ⟨hleft, hless⟩
      . exact Or.inl ⟨es, [], s₁, s₂, rfl, hrun, hstep, hwaiting, hring⟩
      . refine Or.inr ⟨hleft, by omega, ?_⟩
        rintro ⟨_, hfree⟩
        omega
    | _ => cases he
  | false =>
    have hbehind := prefix_step he hstep
    have hsame := hbehind.idxOf_eq_of_mem hwaiting
    refine Or.inr ⟨hbehind.subset hwaiting, Nat.le_of_eq hsame.symm, ?_⟩
    rintro ⟨hfinds, _⟩
    rw [he] at hfinds
    cases hfinds

theorem submitted_or_queued {es : List Event} {n : Nat} (hqueued : fd ∈ s.recvQue)
    (h : Run.Counts Step FindsSlot s es s' n)
    : Submitted s es fd ∨
        fd ∈ s'.recvQue ∧ s'.recvQue.idxOf fd + n ≤ s.recvQue.idxOf fd := by
  induction h with
  | nil => exact Or.inr ⟨hqueued, Nat.le_refl _⟩
  | meet hcounts hfinds hstep ih =>
    rcases ih with hsubmitted | ⟨hwaiting, hle⟩
    . exact Or.inl (hsubmitted.concat _)
    . rcases turn_step hcounts.run hstep hwaiting with hsubmitted | ⟨hleft, _, hless⟩
      . exact Or.inl hsubmitted
      . have hless := hless hfinds
        exact Or.inr ⟨hleft, by omega⟩
  | miss hcounts _ hstep ih =>
    rcases ih with hsubmitted | ⟨hwaiting, hle⟩
    . exact Or.inl (hsubmitted.concat _)
    . rcases turn_step hcounts.run hstep hwaiting with hsubmitted | ⟨hleft, hsame, _⟩
      . exact Or.inl hsubmitted
      . exact Or.inr ⟨hleft, by omega⟩

/--
A connection that waits for the submission of its `READ` gets its turn: the request is submitted as
soon as there have been more submissions with a free slot than requests in front of it, whatever
connections come and go, whatever is sent and received and however often the ring is full meanwhile.
-/
theorem submitted_of_run {es : List Event} {n : Nat} (hqueued : fd ∈ s.recvQue)
    (h : Run.Counts Step FindsSlot s es s' n) (hcount : s.recvQue.idxOf fd < n)
    : Submitted s es fd := by
  rcases submitted_or_queued hqueued h with hsubmitted | ⟨_, hle⟩
  . exact hsubmitted
  . omega

instance (s : Uring) (e : Event) : Decidable (s.FindsSlot e) := by
  unfold FindsSlot
  infer_instance

-- a ring with one slot, which is taken when the second connection is to be submitted for the first
-- time and is free again when the first one has received its bytes
def turns : List Event := [.beginRecv, .beginRecv, completes 0 3, .beginRecv]

theorem submitted_of_run_second
    : ∃ s s',
        Run Step Run.Always (init 2) [.addNewFd 5 zeroHeap, .addNewFd 6 zeroHeap] s ∧
        Run.Counts Step FindsSlot s turns s' 2 ∧ s.recvQue = [5, 6] ∧ Submitted s turns 6 := by
  have hexecute : ((Run.execute next? Run.Always (init 2)
      [.addNewFd 5 zeroHeap, .addNewFd 6 zeroHeap]).bind fun s =>
        (Run.tally next? FindsSlot s turns).map fun x => (s.recvQue, x.2)) = some ([5, 6], 2) := by
    decide +kernel
  rcases Option.bind_eq_some_iff.mp hexecute with ⟨s, hs, hrest⟩
  rcases Option.map_eq_some_iff.mp hrest with ⟨⟨s', n⟩, hs', heq⟩
  rcases Prod.mk.inj heq with ⟨hqueue, hn⟩
  change n = 2 at hn
  rw [hn] at hs'
  have hrun : Run.Counts Step FindsSlot s turns s' 2 := Run.counts_of_tally step_of_next? hs'
  refine ⟨s, s', Run.of_execute step_of_next? hs, hrun, hqueue, submitted_of_run ?_ hrun ?_⟩
  . rw [hqueue]
    decide
  . rw [hqueue]
    decide

end Uring
end Fish
