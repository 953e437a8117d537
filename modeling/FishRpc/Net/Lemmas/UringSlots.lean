import FishRpc.Net.Lemmas.UringEffects

/-!
This module contains the conservation of slots: a slot of the ring is either free or taken by a
request in flight, except for those that are lost when a `WRITE` completion queues another request.
-/

namespace Fish
namespace Uring

def slots (s : Uring) : Nat :=
  s.freeNum + s.ring.length

-- no `WRITE` completion takes the branch that queues another request
def FreesSlot (s : Uring) : Event → Prop
  | .complete e => ¬s.Requeues e
  | _ => True

theorem length_without {s : Uring} {i : Nat} (h : i < s.ring.length)
    : (s.without i).ring.length + 1 = s.ring.length := by
  unfold without
  rw [List.length_eraseIdx_of_lt h]
  omega

theorem slots_beginRecv {s s' : Uring} (h : s.beginRecv = .ok s') : s'.slots = s.slots := by
  rcases beginRecv_cases h with ⟨rs, htake, _, hs'⟩
  have hfree : s.slotsForRecv ≤ s.freeNum := Nat.min_le_right _ _
  have hlength : rs.length = s.slotsForRecv := by
    rw [← List.length_map UringRequest.clientSocket]
    rw [htake]
    apply List.length_take_of_le (Nat.min_le_left _ _)
  rw [hs']
  unfold slots
  simp only [List.length_append]
  omega

theorem slots_beginSend {s s' : Uring} (h : s.beginSend = .ok s') : s'.slots = s.slots := by
  rcases beginSend_cases h with ⟨rs, htake, _, hs'⟩
  have hfree : s.slotsForSend ≤ s.freeNum := Nat.min_le_right _ _
  have hlength : rs.length = s.slotsForSend := by
    rw [← List.length_map queued]
    rw [htake]
    apply List.length_take_of_le (Nat.min_le_left _ _)
  rw [hs']
  unfold slots
  simp only [List.length_append]
  omega

theorem slots_addNewFd {s s' : Uring} {fd : Int} {heap : Int → Byte}
    (h : s.addNewFd fd heap = .ok s') : s'.slots = s.slots := by
  rw [addNewFd_cases h]
  rfl

theorem slots_send (s : Uring) (c : ChannelId) (view : List Byte) (heap : Int → Byte)
    : (s.send c view heap).slots = s.slots := by
  rw [send_eq]
  split
  . rfl
  . rfl

theorem slots_freeSlot {s s' : Uring} {i : Nat} (h : (s.without i).ring.length + 1 = s.ring.length)
    (hring : s'.ring = (s.without i).ring) (hfree : s'.freeNum = s.freeNum)
    : s'.freeSlot.slots = s.slots := by
  show s'.freeNum + 1 + s'.ring.length = s.freeNum + s.ring.length
  rw [hring, hfree]
  omega

theorem slots_complete {s s' : Uring} (hinv : Inv s) {e : Completion}
    (hindex : e.index < s.ring.length) (h : s.complete e = .ok s')
    : (¬s.Requeues e → s'.slots = s.slots) ∧ (s.Requeues e → s'.slots + 1 = s.slots) := by
  have hlength := length_without hindex
  rcases complete_cases hinv hindex h with ⟨r, _, hread | hrequeued | hfreed⟩
  . rcases hread with ⟨_, hkeep, s₁, hquiet, hs'⟩
    refine ⟨fun _ => ?_, fun hrequeues => absurd hrequeues hkeep⟩
    rw [hs']
    apply slots_freeSlot hlength hquiet.ring hquiet.freeNum
  . rcases hrequeued with ⟨_, hrequeues, fd, buf, size, _, _, hs'⟩
    refine ⟨fun hkeep => absurd hrequeues hkeep, fun _ => ?_⟩
    rw [hs']
    show s.freeNum + (s.without e.index).ring.length + 1 = _
    unfold slots
    omega
  . rcases hfreed with ⟨_, hkeep, s₁, hquiet, hs'⟩
    refine ⟨fun _ => ?_, fun hrequeues => absurd hrequeues hkeep⟩
    rw [hs']
    apply slots_freeSlot hlength hquiet.ring hquiet.freeNum

theorem slots_step {s s' : Uring} (hinv : Inv s) {e : Event} (h : Step s e s')
    : (s.FreesSlot e → s'.slots = s.slots) ∧ (¬s.FreesSlot e → s'.slots < s.slots) := by
  rcases h with ⟨henabled, hstep⟩
  cases e with
  | addNewFd fd heap => exact ⟨fun _ => slots_addNewFd hstep, fun hlost => absurd trivial hlost⟩
  | send c view heap =>
    cases hstep
    exact ⟨fun _ => slots_send s c view heap, fun hlost => absurd trivial hlost⟩
  | beginRecv => exact ⟨fun _ => slots_beginRecv hstep, fun hlost => absurd trivial hlost⟩
  | beginSend => exact ⟨fun _ => slots_beginSend hstep, fun hlost => absurd trivial hlost⟩
  | complete e =>
    have hslots := slots_complete hinv henabled hstep
    refine ⟨hslots.1, ?_⟩
    intro hlost
    have := hslots.2 (Classical.not_not.mp hlost)
    omega

/--
The free slots and the requests in flight add up to `queue_size - 1` exactly as long as no `WRITE`
completion queues another request.
-/
theorem slots_eq_iff_freesSlot (queueSize : Nat) (es : List Event) (s : Uring)
    (h : Run Step Run.Always (init queueSize) es s)
    : s.freeNum + s.ring.length = queueSize - 1
        ↔
      Run Step FreesSlot (init queueSize) es s := by
  apply Run.measure_eq_iff (inv_init queueSize) _ _ _ h
  . exact fun s e s' hinv hstep => hinv.of_step hstep
  . exact fun s e s' hinv hstep => (slots_step hinv hstep).1
  . exact fun s e s' hinv hstep => (slots_step hinv hstep).2

def slotRun : List Event :=
  [.addNewFd 5 zeroHeap, .beginRecv, .beginSend, .send 0 [1] zeroHeap, .beginRecv, .beginSend,
    completes 1 1, .beginRecv, .beginSend]

theorem not_slots_eq_requeue
    : ¬∀ queueSize es s,
        Run Step Run.Always (init queueSize) es s →
          s.freeNum + s.ring.length = queueSize - 1 := by
  intro h
  have hrun : (Run.execute next? Run.Always (init 8) slotRun).map slots = some 6 := by
    decide +kernel
  rcases Option.map_eq_some_iff.mp hrun with ⟨s, hs, hslots⟩
  have hclaim := h 8 slotRun s (Run.of_execute step_of_next? hs)
  unfold slots at hslots
  omega

theorem slots_eq_iff_freesSlot_requeue
    : ∃ s, Run Step Run.Always (init 8) slotRun s ∧ ¬Run Step FreesSlot (init 8) slotRun s := by
  have hrun : (Run.execute next? Run.Always (init 8) slotRun).map slots = some 6 := by
    decide +kernel
  rcases Option.map_eq_some_iff.mp hrun with ⟨s, hs, hslots⟩
  have hs := Run.of_execute step_of_next? hs
  refine ⟨s, hs, ?_⟩
  intro hfrees
  have hkeep := (slots_eq_iff_freesSlot 8 slotRun s hs).mpr hfrees
  unfold slots at hslots
  omega

end Uring
end Fish
