import FishRpc.Net.Lemmas.UringSlots

/-!
This module contains a loop that nobody sends on. Each of its connections is awaited by one `READ`,
queued or submitted, no slot of the ring is lost, and after a submission some `READ` is in flight as
long as there is a connection.
-/

namespace Fish
namespace Uring

variable {s s' : Uring} {e : Completion} {r : UringRequest}

-- the descriptors with an outstanding `READ` if there is no other request
def awaited (s : Uring) : List Int :=
  s.recvQue ++ s.ring.map UringRequest.clientSocket

structure Receiving (s : Uring) : Prop where
  sendQue : s.sendQue = []
  ring : ∀ r ∈ s.ring, r.eventType = .read
  awaited : ∀ fd, s.awaited.count fd = (s.connections fd).isSome.toNat
  isOpen : ∀ fd, s.openFds fd = true → s.connections fd ≠ none

theorem receiving_init (queueSize : Nat) : Receiving (init queueSize) where
  sendQue := rfl
  ring r hr := by cases hr
  awaited fd := rfl
  isOpen fd hopen := by cases hopen

theorem Receiving.writes (h : Receiving s) (fd : Int) : s.writes fd = 0 := by
  have hring : (s.ring.countP fun r => r.eventType = .write ∧ r.clientSocket = fd) = 0 := by
    rw [List.countP_eq_zero]
    intro r hr
    simp [h.ring r hr]
  unfold Uring.writes
  rw [h.sendQue, hring]
  rfl

theorem Receiving.sendFlag (h : Receiving s) (hinv : Inv s) {fd : Int} {c : ChannelId}
    (hfd : s.connections fd = some c) : (s.channels c).sendFlag = 0 := by
  rw [hinv.sendFlag fd c hfd]
  rw [h.writes]
  rfl

theorem Receiving.freesSlot (h : Receiving s) (e : Completion) : ¬s.Requeues e := by
  rintro ⟨r, c, hr, htype, _⟩
  rw [h.ring r (List.mem_of_getElem? hr)] at htype
  cases htype

/-! ### Submissions -/

theorem Receiving.addNewFd (h : Receiving s) {fd : Int} {heap : Int → Byte}
    (hopen : s.connections fd = none) (hstep : s.addNewFd fd heap = .ok s') : Receiving s' := by
  rw [addNewFd_cases hstep]
  refine ⟨h.sendQue, h.ring, ?_, ?_⟩
  . intro fd'
    have hcount := h.awaited fd'
    unfold Uring.awaited at hcount ⊢
    simp only [addReadRequest, opened, List.count_append, List.count_singleton, beq_iff_eq]
      at hcount ⊢
    by_cases heq : fd' = fd
    . subst heq
      rw [hopen] at hcount
      rw [Function.update_self, if_pos rfl]
      simp only [Option.isSome_none, Option.isSome_some, Bool.toNat_false, Bool.toNat_true]
        at hcount ⊢
      omega
    . rw [Function.update_of_ne heq, if_neg (Ne.symm heq)]
      omega
  . intro fd' hopen'
    simp only [addReadRequest, opened] at hopen' ⊢
    by_cases heq : fd' = fd
    . subst heq
      simp
    . rw [Function.update_of_ne heq] at hopen' ⊢
      apply h.isOpen fd' hopen'

theorem Receiving.beginRecv (h : Receiving s) (hstep : s.beginRecv = .ok s') : Receiving s' := by
  rcases beginRecv_cases hstep with ⟨rs, htake, hrs, rfl⟩
  refine ⟨h.sendQue, ?_, ?_, h.isOpen⟩
  . exact List.forall_mem_append.mpr ⟨h.ring, fun r hr => (hrs r hr).eventType⟩
  . intro fd
    have hcount := h.awaited fd
    have hsplit := congrArg (List.count fd) (List.take_append_drop s.slotsForRecv s.recvQue)
    unfold Uring.awaited at hcount ⊢
    simp only [List.map_append, List.count_append, htake] at hcount hsplit ⊢
    omega

theorem Receiving.beginSend (h : Receiving s) (hstep : s.beginSend = .ok s') : Receiving s' := by
  rcases beginSend_cases hstep with ⟨rs, htake, _, rfl⟩
  rw [h.sendQue, List.take_nil] at htake
  cases List.map_eq_nil_iff.mp htake
  refine ⟨?_, ?_, ?_, h.isOpen⟩
  . rw [h.sendQue]
    apply List.drop_nil
  . rw [List.append_nil]
    apply h.ring
  . unfold Uring.awaited
    rw [List.append_nil]
    apply h.awaited

/-! ### Completions -/

-- a `READ` that has ended, and its connection is removed
structure Dropped (s : Uring) (i : Nat) (fd : Int) (s' : Uring) : Prop where
  recvQue : s'.recvQue = s.recvQue
  connections : s'.connections = Function.update s.connections fd none
  openFds : s'.openFds = Function.update s.openFds fd false
  sendQue : s'.sendQue = s.sendQue
  ring : s'.ring = s.ring.eraseIdx i

-- a `READ` that has ended, and the next one is queued
structure Renewed (s : Uring) (i : Nat) (fd : Int) (s' : Uring) : Prop where
  recvQue : s'.recvQue = s.recvQue ++ [fd]
  connections : s'.connections = s.connections
  openFds : s'.openFds = s.openFds
  sendQue : s'.sendQue = s.sendQue
  ring : s'.ring = s.ring.eraseIdx i

-- without pending sends a channel is removed when it is closed
theorem close_of_idle {c : ChannelId} {fd : Int} (hfd : (s.channels c).fd = fd)
    (hflag : (s.channels c).sendFlag = 0) (h : s.close c = .ok s')
    : ∃ removed handles,
        s' =
          { s with
            connections := Function.update s.connections fd none
            openFds := Function.update s.openFds fd false
            removed := removed
            handles := handles } := by
  subst hfd
  unfold close at h
  rw [if_neg (by omega)] at h
  unfold removeFd at h
  simp only at h
  split at h
  . cases h
  . split at h
    . cases h
      exact ⟨_, _, rfl⟩
    . cases h

theorem dropped_of_close {i : Nat} {c : ChannelId} {fd : Int} {s₁ : Uring}
    (hsame : SameRequests (s.without i) s₁) (hfd : (s.channels c).fd = fd)
    (hflag : (s.channels c).sendFlag = 0) (h : s₁.close c = .ok s') : Dropped s i fd s'.freeSlot := by
  have hfd₁ : (s₁.channels c).fd = fd := (hsame.flags c).1.trans hfd
  have hflag₁ : (s₁.channels c).sendFlag = 0 := (hsame.flags c).2.1.trans hflag
  rcases close_of_idle hfd₁ hflag₁ h with ⟨removed, handles, rfl⟩
  refine ⟨hsame.recvQue, ?_, ?_, hsame.sendQue, hsame.ring⟩
  . exact congrArg (Function.update · fd none) hsame.connections
  . exact congrArg (Function.update · fd false) hsame.openFds

theorem sameRequests_stored (s : Uring) (r : UringRequest) (e : Completion)
    : SameRequests s (s.stored r e) :=
  .modify _ _ _ (sameFlags_store _ _ _)

theorem sameRequests_arrived (s : Uring) (r : UringRequest) (e : Completion)
    : SameRequests s (s.arrived r e) :=
  (sameRequests_stored s r e).trans (.modify _ _ _ (sameFlags_alreadyRead _ _))

/--
A `READ` completion on a connection without pending sends removes the connection or awaits the next
bytes.
-/
theorem complete_idle_cases (hinv : Inv s) (hr : s.ring[e.index]? = some r)
    (htype : r.eventType = .read) (hflag : (s.channels r.channel).sendFlag = 0)
    (h : s.complete e = .ok s')
    : Dropped s e.index r.clientSocket s' ∨ Renewed s e.index r.clientSocket s' := by
  have hconnected := (hinv.ring r (List.mem_of_getElem? hr)).1
  have hfd := hinv.fd _ _ hconnected
  have hwithout : (s.without e.index).connections r.clientSocket = some r.channel := hconnected
  have harrived := sameRequests_arrived (s.without e.index) r e
  rw [complete_of_read hr htype] at h
  rw [readCompletion_eq e hwithout] at h
  split at h
  . rcases ok_of_map h with ⟨s₁, hclose, rfl⟩
    left
    apply dropped_of_close (sameRequests_stored _ r e) hfd hflag hclose
  . rcases ok_of_map h with ⟨s₁, hresume, rfl⟩
    by_cases hempty : (((s.without e.index).arrived r e).channels r.channel).dispReadBuf.size = 0
    . left
      rw [resume_of_empty _ hempty] at hresume
      apply dropped_of_close (harrived.trans (sameRequests_useHandle _ _)) hfd hflag hresume
    . right
      rw [resume_of_unread _ hempty] at hresume
      cases hresume
      rw [(harrived.flags r.channel).1.trans hfd]
      exact ⟨congrArg (· ++ [r.clientSocket]) harrived.recvQue, harrived.connections,
        harrived.openFds, harrived.sendQue, harrived.ring⟩

theorem count_clientSocket_eraseIdx {ring : List UringRequest} {i : Nat} (h : ring[i]? = some r)
    (fd : Int)
    : (ring.map UringRequest.clientSocket).count fd
        =
      ((ring.eraseIdx i).map UringRequest.clientSocket).count fd
        + if r.clientSocket = fd then 1 else 0 := by
  unfold List.count
  simp only [List.countP_map]
  rw [countP_eraseIdx _ h]
  simp only [Function.comp_apply, beq_iff_eq]

theorem Receiving.complete (h : Receiving s) (hinv : Inv s) (hindex : e.index < s.ring.length)
    (hstep : s.complete e = .ok s') : Receiving s' := by
  have hr : s.ring[e.index]? = some s.ring[e.index] := List.getElem?_eq_getElem hindex
  generalize s.ring[e.index] = r at hr
  have htype := h.ring r (List.mem_of_getElem? hr)
  have hconnected := (hinv.ring r (List.mem_of_getElem? hr)).1
  have hflag := h.sendFlag hinv hconnected
  have herase := count_clientSocket_eraseIdx hr
  rcases complete_idle_cases hinv hr htype hflag hstep with hdropped | hrenewed
  . refine ⟨hdropped.sendQue.trans h.sendQue, ?_, ?_, ?_⟩
    . rw [hdropped.ring]
      intro r' hr'
      apply h.ring r' (List.mem_of_mem_eraseIdx hr')
    . intro fd
      have hcount := h.awaited fd
      have herase := herase fd
      unfold Uring.awaited at hcount ⊢
      rw [hdropped.recvQue, hdropped.ring, hdropped.connections]
      simp only [List.count_append] at hcount ⊢
      by_cases heq : fd = r.clientSocket
      . subst heq
        rw [hconnected] at hcount
        rw [Function.update_self]
        rw [if_pos rfl] at herase
        simp only [Option.isSome_none, Option.isSome_some, Bool.toNat_false, Bool.toNat_true]
          at hcount ⊢
        omega
      . rw [Function.update_of_ne heq]
        rw [if_neg (Ne.symm heq)] at herase
        omega
    . intro fd hopen
      rw [hdropped.openFds] at hopen
      rw [hdropped.connections]
      by_cases heq : fd = r.clientSocket
      . subst heq
        simp at hopen
      . rw [Function.update_of_ne heq] at hopen ⊢
        apply h.isOpen fd hopen
  . refine ⟨hrenewed.sendQue.trans h.sendQue, ?_, ?_, ?_⟩
    . rw [hrenewed.ring]
      intro r' hr'
      apply h.ring r' (List.mem_of_mem_eraseIdx hr')
    . intro fd
      have hcount := h.awaited fd
      have herase := herase fd
      unfold Uring.awaited at hcount ⊢
      rw [hrenewed.recvQue, hrenewed.ring, hrenewed.connections]
      simp only [List.count_append, List.count_singleton, beq_iff_eq] at hcount ⊢
      omega
    . rw [hrenewed.openFds, hrenewed.connections]
      apply h.isOpen

/-! ### Runs -/

def Sends : Event → Prop
  | .send _ _ _ => True
  | _ => False

theorem Receiving.step (h : Receiving s) (hinv : Inv s) {e : Event} (hquiet : ¬Sends e)
    (hstep : Step s e s') : Receiving s' := by
  rcases hstep with ⟨henabled, hstep⟩
  cases e with
  | addNewFd fd heap =>
    apply h.addNewFd ?_ hstep
    cases hfd : s.connections fd with
    | none => rfl
    | some c =>
      have hopen := hinv.isOpen fd c hfd
      rw [henabled] at hopen
      cases hopen
  | send c view heap => exact absurd trivial hquiet
  | beginRecv => apply h.beginRecv hstep
  | beginSend => apply h.beginSend hstep
  | complete e => apply h.complete hinv henabled hstep

theorem Receiving.slots (h : Receiving s) (hinv : Inv s) {e : Event} (hstep : Step s e s')
    : s'.slots = s.slots := by
  apply (slots_step hinv hstep).1
  cases e with
  | complete e => apply h.freesSlot e
  | addNewFd fd heap => trivial
  | send c view heap => trivial
  | beginRecv => trivial
  | beginSend => trivial

-- with a slot to give the submission leaves no connection waiting without a `READ` in flight
theorem Receiving.inFlight (h : Receiving s) (hslots : 0 < s.slots) (hstep : s.beginRecv = .ok s')
    {fd : Int} {c : ChannelId} (hfd : s'.connections fd = some c) : s'.ring ≠ [] := by
  intro hring
  have hcount := (h.beginRecv hstep).awaited fd
  rw [hfd] at hcount
  rcases beginRecv_cases hstep with ⟨rs, htake, _, rfl⟩
  rcases List.append_eq_nil_iff.mp hring with ⟨hold, rfl⟩
  have hnone : s.slotsForRecv = 0 ∨ s.recvQue = [] := by
    rw [List.map_nil] at htake
    apply List.take_eq_nil_iff.mp htake.symm
  have hfree : 0 < s.freeNum := by
    unfold Uring.slots at hslots
    rw [hold] at hslots
    simpa using hslots
  have hempty : s.recvQue = [] := by
    rcases hnone with hzero | hempty
    . unfold slotsForRecv at hzero
      apply List.length_eq_zero_iff.mp
      omega
    . exact hempty
  simp [Uring.awaited, hempty, hold] at hcount

structure Serving (queueSize : Nat) (s : Uring) : Prop where
  inv : Inv s
  receiving : Receiving s
  slots : s.slots = queueSize - 1

theorem serving_init (queueSize : Nat) : Serving queueSize (init queueSize) where
  inv := inv_init queueSize
  receiving := receiving_init queueSize
  slots := rfl

theorem Serving.step {queueSize : Nat} {e : Event} (h : Serving queueSize s) (hquiet : ¬Sends e)
    (hstep : Step s e s') : Serving queueSize s' := by
  rcases h.inv.step hstep.1 with ⟨s₁, hok, hinv⟩
  rw [hstep.2] at hok
  cases hok
  exact ⟨hinv, h.receiving.step h.inv hquiet hstep, (h.receiving.slots h.inv hstep).trans h.slots⟩

end Uring
end Fish
