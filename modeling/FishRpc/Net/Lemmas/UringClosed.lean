import FishRpc.Net.Lemmas.UringEffects

/-!
This module contains what becomes of a channel on which `close` has been called. `send` may be called
on every channel that has been created, also on one that is no longer connected, so the `WRITE`
requests need not belong to their connections any more. The `READ` requests still do.
-/

namespace Fish
namespace Uring

-- a holder of a `Channel::ptr` can call `send` at any time
def HeldEnabled (s : Uring) : Event → Prop
  | .send c _ _ => c < s.next
  | e => s.Enabled e

def HeldStep (s : Uring) (e : Event) (s' : Uring) : Prop := s.HeldEnabled e ∧ s.step e = .ok s'

variable {s s' : Uring} {c : ChannelId} {fd : Int}

/-! ### The loop without its `WRITE` requests -/

def readsOnly (s : Uring) : Uring :=
  { s with
    sendQue := []
    ring := s.ring.filter fun r => r.eventType = .read
    channels := fun c => { s.channels c with sendFlag := 0 }
    openFds := fun fd => (s.connections fd).isSome
    removed := s.removed.map fun x => { x with outstanding := 0 } }

def ReadInv (s : Uring) : Prop := Inv s.readsOnly

theorem reads_readsOnly (s : Uring) (fd : Int) : s.readsOnly.reads fd = s.reads fd := by
  unfold reads readsOnly
  rw [List.countP_filter]
  congr 2
  funext r
  cases r.eventType <;> simp

theorem writes_readsOnly (s : Uring) (fd : Int) : s.readsOnly.writes fd = 0 := by
  unfold writes readsOnly
  rw [List.countP_nil, List.countP_filter, Nat.zero_add, List.countP_eq_zero]
  intro r _
  cases r.eventType <;> simp

theorem ReadInv.recvQue (h : ReadInv s) : ∀ fd ∈ s.recvQue, ∃ c, s.connections fd = some c :=
  Inv.recvQue (s := s.readsOnly) h

theorem ReadInv.ring (h : ReadInv s) {r : UringRequest} (hr : r ∈ s.ring)
    (htype : r.eventType = .read)
    : s.connections r.clientSocket = some r.channel ∧ r.ptr.channel = r.channel :=
  Inv.ring h r (List.mem_filter.mpr ⟨hr, decide_eq_true htype⟩)

theorem ReadInv.socket (h : ReadInv s) (hfd : s.connections fd = some c) : (s.channels c).fd = fd :=
  Inv.fd h fd c hfd

theorem ReadInv.reads (h : ReadInv s) (hfd : s.connections fd = some c)
    : s.reads fd ≤ 1 ∧ ((s.channels c).closeFlag = true → s.reads fd = 0) := by
  have hone := Inv.oneRead h fd c hfd
  have hclosing := Inv.closing h fd c hfd
  rw [reads_readsOnly] at hone hclosing
  exact ⟨hone, hclosing⟩

theorem ReadInv.removed (h : ReadInv s) {x : Removal} (hx : x ∈ s.removed) (fd : Int)
    : s.connections fd ≠ some x.channel := by
  have hx' : { x with outstanding := 0 } ∈ s.readsOnly.removed := List.mem_map.mpr ⟨x, hx, rfl⟩
  apply (Inv.removedFresh h _ hx').2 fd

theorem ReadInv.transfer (h : ReadInv s) (hconnections : s'.connections = s.connections)
    (hnext : s'.next = s.next) (hremoved : s'.removed = s.removed)
    (hfd : ∀ c, (s'.channels c).fd = (s.channels c).fd)
    (hrecv : ∀ fd ∈ s'.recvQue, ∃ c, s.connections fd = some c)
    (hring : ∀ r ∈ s'.ring, r.eventType = .read →
      s.connections r.clientSocket = some r.channel ∧ r.ptr.channel = r.channel)
    (hreads : ∀ fd c, s.connections fd = some c →
      s'.reads fd ≤ 1 ∧ ((s'.channels c).closeFlag = true → s'.reads fd = 0))
    : ReadInv s' := by
  refine Inv.transfer h hconnections ?_ hnext ?_ hfd hrecv ?_ ?_ ?_ ?_
  . unfold readsOnly
    rw [hconnections]
  . unfold readsOnly
    rw [hremoved]
  . rintro q ⟨⟩
  . intro r hr
    have hmem := List.mem_filter.mp hr
    apply hring r hmem.1 (of_decide_eq_true hmem.2)
  . intro fd c hc
    rw [reads_readsOnly]
    apply hreads fd c hc
  . intro fd c _
    rw [writes_readsOnly]
    rfl

-- a step that leaves the `READ` requests, the connections and the closing of channels as they are
structure SameReads (s s' : Uring) : Prop where
  connections : s'.connections = s.connections
  next : s'.next = s.next
  removed : s'.removed = s.removed
  recvQue : s'.recvQue = s.recvQue
  ring : ∀ r ∈ s'.ring, r.eventType = .read → r ∈ s.ring
  reads : ∀ fd, s'.reads fd = s.reads fd
  channels : ∀ c, (s'.channels c).fd = (s.channels c).fd ∧
    (s'.channels c).closeFlag = (s.channels c).closeFlag

theorem SameReads.trans {s'' : Uring} (h : SameReads s s') (h' : SameReads s' s'')
    : SameReads s s'' where
  connections := h'.connections.trans h.connections
  next := h'.next.trans h.next
  removed := h'.removed.trans h.removed
  recvQue := h'.recvQue.trans h.recvQue
  ring r hr htype := h.ring r (h'.ring r hr htype) htype
  reads fd := (h'.reads fd).trans (h.reads fd)
  channels c :=
    ⟨(h'.channels c).1.trans (h.channels c).1, (h'.channels c).2.trans (h.channels c).2⟩

theorem SameRequests.sameReads (h : SameRequests s s') : SameReads s s' where
  connections := h.connections
  next := h.next
  removed := h.removed
  recvQue := h.recvQue
  ring _ hr _ := h.ring ▸ hr
  reads := h.reads
  channels c := ⟨(h.flags c).1, (h.flags c).2.2⟩

theorem SameReads.modify (s : Uring) (c : ChannelId) (f : Channel → Channel)
    (hf : (f (s.channels c)).fd = (s.channels c).fd ∧
      (f (s.channels c)).closeFlag = (s.channels c).closeFlag)
    : SameReads s (s.modify c f) where
  connections := rfl
  next := rfl
  removed := rfl
  recvQue := rfl
  ring _ hr _ := hr
  reads _ := rfl
  channels c' := by
    by_cases hc : c' = c
    . rw [hc, modify_channels_self]
      apply hf
    . rw [modify_channels_of_ne s f hc]
      exact ⟨rfl, rfl⟩

theorem ReadInv.congr (h : ReadInv s) (hsame : SameReads s s') : ReadInv s' := by
  apply h.transfer hsame.connections hsame.next hsame.removed (fun c => (hsame.channels c).1)
  . rw [hsame.recvQue]
    apply h.recvQue
  . intro r hr htype
    apply h.ring (hsame.ring r hr htype) htype
  . intro fd c hc
    rw [hsame.reads, (hsame.channels c).2]
    apply h.reads hc

theorem ReadInv.removeFd (h : ReadInv s) (hfd : s.connections fd = some c)
    (hreads : s.reads fd = 0) (hremove : s.removeFd c = .ok s') : ReadInv s' := by
  have hwrites := s.writes_readsOnly fd
  rw [← reads_readsOnly] at hreads
  rcases Inv.removeFd h hfd hreads hwrites with ⟨s'', hs'', hinv⟩
  have heq : s'' = s'.readsOnly := by
    have hsocket : (s.readsOnly.channels c).fd = fd := Inv.fd h fd c hfd
    unfold Uring.removeFd at hs'' hremove
    simp only [h.socket hfd, hfd, if_true] at hremove
    have hfind : s.readsOnly.connections fd = some c := hfd
    simp only [hsocket, hfind, if_true, hreads, hwrites] at hs''
    cases hremove
    cases hs''
    unfold readsOnly
    congr 1
    . funext fd'
      by_cases heq : fd' = fd
      . simp [heq]
      . simp [heq]
    . simp
  rw [heq] at hinv
  exact hinv

theorem ReadInv.close (h : ReadInv s) (hfd : s.connections fd = some c) (hreads : s.reads fd = 0)
    (hclose : s.close c = .ok s') : ReadInv s' := by
  unfold Uring.close at hclose
  split at hclose
  . cases hclose
    refine h.transfer rfl rfl rfl ?_ h.recvQue (fun r hr => h.ring hr) ?_
    . intro c'
      by_cases hc : c' = c
      . rw [hc, modify_channels_self]
      . rw [modify_channels_of_ne _ _ hc]
    . intro fd' c' hc'
      refine ⟨(h.reads hc').1, ?_⟩
      intro hflag
      by_cases hc : c' = c
      . subst hc
        rw [Inv.inj h hc' hfd]
        exact hreads
      . rw [modify_channels_of_ne _ _ hc] at hflag
        exact (h.reads hc').2 hflag
  . apply (h.congr (sameRequests_useHandle s c).sameReads).removeFd hfd hreads hclose

/-! ### Steps -/

-- what was closed stays closed, and a channel is closed while it is connected
structure Later (s s' : Uring) : Prop where
  next : s.next ≤ s'.next
  removed : ∀ x ∈ s.removed, x ∈ s'.removed
  closeFlag : ∀ c < s.next, (s'.channels c).closeFlag = (s.channels c).closeFlag ∨
    (s'.channels c).closeFlag = true ∧ ∃ fd, s.connections fd = some c
  connections : ∀ fd, ∀ c < s.next, s'.connections fd = some c → s.connections fd = some c

theorem SameReads.later (h : SameReads s s') : Later s s' where
  next := Nat.le_of_eq h.next.symm
  removed _ hx := h.removed ▸ hx
  closeFlag c _ := Or.inl (h.channels c).2
  connections _ _ _ hc := h.connections ▸ hc

theorem Later.trans {s'' : Uring} (h : Later s s') (h' : Later s' s'') : Later s s'' where
  next := Nat.le_trans h.next h'.next
  removed x hx := h'.removed x (h.removed x hx)
  closeFlag c hc := by
    have hc' := Nat.lt_of_lt_of_le hc h.next
    rcases h'.closeFlag c hc' with heq | ⟨htrue, fd, hfd⟩
    . rw [heq]
      apply h.closeFlag c hc
    . exact Or.inr ⟨htrue, fd, h.connections fd c hc hfd⟩
  connections fd c hc hfd :=
    h.connections fd c hc (h'.connections fd c (Nat.lt_of_lt_of_le hc h.next) hfd)

def Advances (s s' : Uring) : Prop := ReadInv s → ReadInv s' ∧ Later s s'

theorem SameReads.advances (h : SameReads s s') : Advances s s' :=
  fun hinv => ⟨hinv.congr h, h.later⟩

theorem Advances.trans {s'' : Uring} (h : Advances s s') (h' : Advances s' s'')
    : Advances s s'' := by
  intro hinv
  rcases h hinv with ⟨hinv, hlater⟩
  rcases h' hinv with ⟨hinv, hlater'⟩
  exact ⟨hinv, hlater.trans hlater'⟩

theorem later_removeFd (h : s.removeFd c = .ok s') : Later s s' := by
  unfold Uring.removeFd at h
  simp only at h
  split at h
  . cases h
  . split at h
    . cases h
      refine ⟨Nat.le_refl _, fun x hx => List.mem_append_left _ hx, fun _ _ => Or.inl rfl, ?_⟩
      intro fd' c' _ hc'
      simp only [Function.update_apply] at hc'
      split at hc'
      . cases hc'
      . exact hc'
    . cases h

theorem later_close (hfd : s.connections fd = some c) (h : s.close c = .ok s') : Later s s' := by
  unfold Uring.close at h
  split at h
  . cases h
    refine ⟨Nat.le_refl _, fun x hx => hx, ?_, fun _ _ _ hc' => hc'⟩
    intro c' _
    by_cases hc : c' = c
    . subst hc
      rw [modify_channels_self]
      exact Or.inr ⟨rfl, fd, hfd⟩
    . rw [modify_channels_of_ne _ _ hc]
      exact Or.inl rfl
  . apply (sameRequests_useHandle s c).sameReads.later.trans (later_removeFd h)

theorem advances_close (hfd : s.connections fd = some c) (hreads : s.reads fd = 0)
    (h : s.close c = .ok s') : Advances s s' :=
  fun hinv => ⟨hinv.close hfd hreads h, later_close hfd h⟩

theorem advances_reduseSend (hfd : s.connections fd = some c) (h : s.reduseSend c = .ok s')
    : Advances s s' := by
  have hdec := SameReads.modify s c (fun ch => { ch with sendFlag := ch.sendFlag - 1 }) ⟨rfl, rfl⟩
  unfold Uring.reduseSend at h
  split at h
  . simp only at h
    split at h
    . rename_i hlast
      intro hinv
      have hreads := ((hinv.congr hdec).reads hfd).2 hlast.2
      exact hdec.advances.trans (advances_close hfd hreads h) hinv
    . cases h
      apply hdec.advances
  . cases h

theorem ReadInv.addReadRequest (h : ReadInv s) (hfd : s.connections fd = some c)
    (hreads : s.reads fd = 0) (hopen : (s.channels c).closeFlag = false)
    : ReadInv (s.addReadRequest fd) :=
  Inv.addReadRequest (s := s.readsOnly) h hfd ((reads_readsOnly s fd).trans hreads) hopen

theorem later_addReadRequest (s : Uring) (fd : Int) : Later s (s.addReadRequest fd) :=
  ⟨Nat.le_refl _, fun _ hx => hx, fun _ _ => Or.inl rfl, fun _ _ _ hc => hc⟩

theorem advances_resume {consumed : Nat} (hfd : s.connections fd = some c)
    (hreads : s.reads fd = 0) (hopen : (s.channels c).closeFlag = false)
    (h : s.resume c consumed = .ok s') : Advances s s' := by
  have hhandle := (sameRequests_useHandle s c).sameReads
  unfold Uring.resume at h
  simp only at h
  split at h
  . exact hhandle.advances.trans (advances_close hfd hreads h)
  . cases h
    have herase := hhandle.trans (SameReads.modify _ c (fun ch => ch.eraseRead consumed) ⟨rfl, rfl⟩)
    intro hinv
    have hinv' := hinv.congr herase
    refine ⟨?_, herase.later.trans (later_addReadRequest _ _)⟩
    rw [hinv'.socket hfd]
    apply hinv'.addReadRequest hfd hreads
    rw [modify_channels_self]
    exact hopen

theorem ReadInv.without (h : ReadInv s) {i : Nat} {r : UringRequest} (hr : s.ring[i]? = some r)
    : ReadInv (s.without i) := by
  have hreads (fd : Int) : (s.without i).reads fd ≤ s.reads fd := by
    rw [reads_without hr]
    apply Nat.le_add_right
  refine h.transfer rfl rfl rfl (fun _ => rfl) h.recvQue ?_ ?_
  . intro r' hr' htype
    apply h.ring (List.mem_of_mem_eraseIdx hr') htype
  . intro fd c hc
    refine ⟨Nat.le_trans (hreads fd) (h.reads hc).1, ?_⟩
    intro hclose
    have hzero := (h.reads hc).2 hclose
    have hle := hreads fd
    omega

theorem later_without (s : Uring) (i : Nat) : Later s (s.without i) :=
  ⟨Nat.le_refl _, fun _ hx => hx, fun _ _ => Or.inl rfl, fun _ _ _ hc => hc⟩

-- a completed `READ` was the only one, and its channel was not about to be closed
theorem ReadInv.single (h : ReadInv s) {i : Nat} {r : UringRequest} (hr : s.ring[i]? = some r)
    (htype : r.eventType = .read)
    : s.connections r.clientSocket = some r.channel ∧ (s.without i).reads r.clientSocket = 0 ∧
      (s.channels r.channel).closeFlag = false := by
  have hfd := (h.ring (List.mem_of_getElem? hr) htype).1
  have hone := h.reads hfd
  have hhere := reads_without hr r.clientSocket
  rw [if_pos ⟨htype, rfl⟩] at hhere
  refine ⟨hfd, by omega, ?_⟩
  cases hclose : (s.channels r.channel).closeFlag with
  | false => rfl
  | true =>
    have hzero := hone.2 hclose
    omega

theorem advances_map {result : Except Failure Uring} (h : result.map freeSlot = .ok s')
    (hadvances : ∀ s₁, result = .ok s₁ → Advances s s₁) : Advances s s' := by
  rcases ok_of_map h with ⟨s₁, hs₁, rfl⟩
  exact (hadvances s₁ hs₁).trans (sameRequests_freeSlot s₁).sameReads.advances

theorem sameReads_stored (s : Uring) (r : UringRequest) (e : Completion)
    : SameReads s (s.stored r e) :=
  .modify _ _ _ ⟨(sameFlags_store _ _ _).1, (sameFlags_store _ _ _).2.2⟩

theorem sameReads_arrived (s : Uring) (r : UringRequest) (e : Completion)
    : SameReads s (s.arrived r e) :=
  (sameReads_stored s r e).trans (.modify _ _ _ ⟨rfl, rfl⟩)

theorem advances_read {e : Completion} {r : UringRequest} (hr : s.ring[e.index]? = some r)
    (htype : r.eventType = .read) (h : (s.without e.index).readCompletion r e = .ok s')
    : Advances s s' := by
  intro hinv
  rcases hinv.single hr htype with ⟨hfd, hreads, hopen⟩
  have hwithout : Advances s (s.without e.index) := fun h => ⟨h.without hr, later_without s _⟩
  have hfd' : (s.without e.index).connections r.clientSocket = some r.channel := hfd
  have hstored := sameReads_stored (s.without e.index) r e
  have harrived := sameReads_arrived (s.without e.index) r e
  rw [readCompletion_eq e hfd'] at h
  split at h
  . apply (hwithout.trans hstored.advances).trans _ hinv
    apply advances_map h
    intro s₁ hs₁
    rw [← hstored.connections] at hfd'
    apply advances_close hfd' hreads hs₁
  . apply (hwithout.trans harrived.advances).trans _ hinv
    apply advances_map h
    intro s₁ hs₁
    rw [← harrived.connections] at hfd'
    rw [← harrived.reads] at hreads
    apply advances_resume hfd' hreads _ hs₁
    exact (harrived.channels r.channel).2.trans hopen

theorem sameReads_addWriteRequest (s : Uring) (fd : Int) (buf : Pointer) (size : Nat)
    : SameReads s (s.addWriteRequest fd buf size) :=
  ⟨rfl, rfl, rfl, rfl, fun _ hr _ => hr, fun _ => rfl, fun _ => ⟨rfl, rfl⟩⟩

theorem sameReads_erased (s : Uring) (r : UringRequest) (e : Completion) (c : ChannelId)
    : SameReads s (s.erased r e c) :=
  (sameRequests_accept s r e).sameReads.trans (.modify _ _ _ ⟨rfl, rfl⟩)

theorem advances_write {r : UringRequest} {e : Completion} (h : s.writeCompletion r e = .ok s')
    : Advances s s' := by
  rcases writeCompletion_cases h with ⟨c, hfd, ⟨fd, buf, size, rfl⟩ | ⟨s₁, hs₁, rfl⟩⟩
  . apply ((sameReads_erased s r e c).trans (sameReads_addWriteRequest _ _ _ _)).advances
  . have hreduse : Advances (s.erased r e c) s₁ := by
      rw [← (sameReads_erased s r e c).connections] at hfd
      apply advances_reduseSend hfd hs₁
    apply (sameReads_erased s r e c).advances.trans
    apply hreduse.trans (sameRequests_freeSlot s₁).sameReads.advances

theorem advances_complete {e : Completion} (h : s.complete e = .ok s') : Advances s s' := by
  unfold Uring.complete at h
  split at h
  . cases h
    exact fun hinv => ⟨hinv, (SameRequests.sameReads ⟨rfl, rfl, rfl, rfl, rfl, rfl, rfl,
      fun _ => ⟨rfl, rfl, rfl⟩⟩).later⟩
  . rename_i r hr
    simp only at h
    split at h
    . apply advances_read hr (by assumption) h
    . have hwithout : Advances s (s.without e.index) := fun h => ⟨h.without hr, later_without s _⟩
      apply hwithout.trans (advances_write h)

theorem count_clientSocket {rs : List UringRequest} (h : ∀ r ∈ rs, Windowed s r) (fd : Int)
    : (rs.countP fun r => r.eventType = .read ∧ r.clientSocket = fd)
        =
      (rs.map UringRequest.clientSocket).count fd := by
  rw [List.count, List.countP_map]
  apply List.countP_congr
  intro r hr
  simp [(h r hr).eventType]

theorem advances_beginRecv (h : s.beginRecv = .ok s') : Advances s s' := by
  rcases beginRecv_cases h with ⟨rs, htake, hrs, rfl⟩
  have hreads (fd : Int)
      : Uring.reads { s with
          recvQue := s.recvQue.drop s.slotsForRecv
          freeNum := s.freeNum - s.slotsForRecv
          ring := s.ring ++ rs } fd = s.reads fd := by
    have hsplit := congrArg (List.count fd) (List.take_append_drop s.slotsForRecv s.recvQue)
    rw [List.count_append, ← htake, ← count_clientSocket hrs] at hsplit
    unfold Uring.reads
    simp only [List.countP_append]
    omega
  intro hinv
  refine ⟨?_, Nat.le_refl _, fun _ hx => hx, fun _ _ => Or.inl rfl, fun _ _ _ hc => hc⟩
  refine hinv.transfer rfl rfl rfl (fun _ => rfl) ?_ ?_ ?_
  . intro fd hfd
    apply hinv.recvQue fd (List.mem_of_mem_drop hfd)
  . intro r hr htype
    rcases List.mem_append.mp hr with hr | hr
    . apply hinv.ring hr htype
    . have hwindowed := hrs r hr
      refine ⟨hwindowed.channel, ?_⟩
      rw [hwindowed.ptr]
  . intro fd c hc
    rw [hreads]
    apply hinv.reads hc

theorem sameReads_beginSend (h : s.beginSend = .ok s') : SameReads s s' := by
  rcases beginSend_cases h with ⟨rs, _, hrs, rfl⟩
  refine ⟨rfl, rfl, rfl, rfl, ?_, ?_, fun _ => ⟨rfl, rfl⟩⟩
  . intro r hr htype
    rcases List.mem_append.mp hr with hr | hr
    . exact hr
    . rw [hrs r hr] at htype
      cases htype
  . intro fd
    have hnone : (rs.countP fun r => r.eventType = .read ∧ r.clientSocket = fd) = 0 := by
      rw [List.countP_eq_zero]
      intro r hr
      simp [hrs r hr]
    unfold Uring.reads
    simp only [List.countP_append, hnone]
    rfl

theorem readsOnly_opened (s : Uring) (fd : Int) (heap : Int → Byte)
    : (s.opened fd heap).readsOnly = s.readsOnly.opened fd heap := by
  unfold opened readsOnly
  congr 1
  . funext c
    by_cases hc : c = s.next
    . simp [hc, Channel.new]
    . simp [hc]
  . funext fd'
    by_cases heq : fd' = fd
    . simp [heq]
    . simp [heq]

theorem advances_addNewFd {heap : Int → Byte} (h : s.addNewFd fd heap = .ok s')
    : Advances s s' := by
  have hfd : s.connections fd = none := by
    cases hc : s.connections fd with
    | none => rfl
    | some c =>
      unfold addNewFd at h
      rw [hc] at h
      cases h
  rw [addNewFd_cases h]
  intro hinv
  constructor
  . have hclosed : s.readsOnly.openFds fd = false := by simp [readsOnly, hfd]
    have hnone : s.readsOnly.connections fd = none := hfd
    rcases Inv.addNewFd (s := s.readsOnly) hinv hclosed heap with ⟨s'', hs'', hinv'⟩
    rw [addNewFd_eq heap hnone, ← readsOnly_opened] at hs''
    cases hs''
    exact hinv'
  . refine ⟨Nat.le_succ _, fun _ hx => hx, ?_, ?_⟩
    . intro c hc
      have hne : c ≠ s.next := Nat.ne_of_lt hc
      simp [addReadRequest, opened, hne]
    . intro fd' c hc hfd'
      simp only [addReadRequest, opened, Function.update_apply] at hfd'
      split at hfd'
      . cases hfd'
        exact absurd hc (Nat.lt_irrefl _)
      . exact hfd'

theorem sameReads_send (s : Uring) (c : ChannelId) (view : List Byte) (heap : Int → Byte)
    : SameReads s (s.send c view heap) := by
  rw [send_eq]
  split
  . exact ⟨rfl, rfl, rfl, rfl, fun _ hr _ => hr, fun _ => rfl, fun _ => ⟨rfl, rfl⟩⟩
  . refine ⟨rfl, rfl, rfl, rfl, fun _ hr _ => hr, fun _ => rfl, ?_⟩
    intro c'
    by_cases hc : c' = c
    . rw [hc, sent_channels_self]
      exact ⟨rfl, rfl⟩
    . rw [sent_channels_of_ne s view heap hc]
      exact ⟨rfl, rfl⟩

theorem advances_step {e : Event} (h : HeldStep s e s') : Advances s s' := by
  rcases h with ⟨_, hstep⟩
  cases e with
  | addNewFd fd heap => apply advances_addNewFd hstep
  | send c view heap =>
    cases hstep
    apply (sameReads_send s c view heap).advances
  | beginRecv => apply advances_beginRecv hstep
  | beginSend => apply (sameReads_beginSend hstep).advances
  | complete e => apply advances_complete hstep

/-! ### Closed channels -/

-- `close` has been called: it leaves the flag or removes the channel
def Closed (s : Uring) (c : ChannelId) : Prop :=
  c < s.next ∧ ((s.channels c).closeFlag = true ∨ ∃ x ∈ s.removed, x.channel = c)

theorem closed_of_close (hc : c < s.next) (h : s.close c = .ok s')
    : s'.Closed c ∧
      ((s'.channels c).closeFlag = true
        ↔
      (s.channels c).closeFlag = true ∨ (s.channels c).sendFlag > 0) := by
  unfold Uring.close at h
  split at h
  . rename_i hsend
    cases h
    have hflag
        : ((s.modify c fun ch => { ch with closeFlag := true }).channels c).closeFlag = true := by
      rw [modify_channels_self]
    exact ⟨⟨hc, Or.inl hflag⟩, iff_of_true hflag (Or.inr hsend)⟩
  . rename_i hsend
    unfold Uring.removeFd at h
    simp only at h
    split at h
    . cases h
    . split at h
      . cases h
        refine ⟨⟨hc, Or.inr ⟨_, List.mem_append_right _ List.mem_cons_self, rfl⟩⟩, ?_⟩
        exact (or_iff_left hsend).symm
      . cases h

theorem Later.closed (h : Later s s') (hinv : ReadInv s) (hc : s.Closed c)
    : s'.Closed c ∧ (s'.channels c).closeFlag = (s.channels c).closeFlag := by
  have hlt : c < s'.next := Nat.lt_of_lt_of_le hc.1 h.next
  rcases hc.2 with hflag | ⟨x, hx, rfl⟩
  . have hflag' : (s'.channels c).closeFlag = true := by
      rcases h.closeFlag c hc.1 with heq | htrue
      . rw [heq, hflag]
      . exact htrue.1
    exact ⟨⟨hlt, Or.inl hflag'⟩, hflag'.trans hflag.symm⟩
  . refine ⟨⟨hlt, Or.inr ⟨x, h.removed x hx, rfl⟩⟩, ?_⟩
    rcases h.closeFlag x.channel hc.1 with heq | ⟨_, fd, hfd⟩
    . exact heq
    . exact absurd hfd (hinv.removed hx fd)

theorem send_sendQue_iff (s : Uring) (c : ChannelId) (view : List Byte) (heap : Int → Byte)
    : (s.send c view heap).sendQue = s.sendQue ↔ (s.channels c).closeFlag = true := by
  rw [send_eq]
  split
  . rename_i hflag
    exact iff_of_true rfl hflag
  . rename_i hflag
    refine iff_of_false ?_ hflag
    intro heq
    have hlen := congrArg List.length heq
    simp [sent, addWriteRequest, modify] at hlen

theorem readInv_of_run {queueSize : Nat} {es : List Event}
    (h : Run HeldStep Run.Always (init queueSize) es s) : ReadInv s := by
  have hinit : ReadInv (init queueSize) := inv_init queueSize
  apply h.invariant hinit
  intro s e s' hs _ hstep
  exact (advances_step hstep hs).1

theorem closed_of_run {es : List Event} (hinv : ReadInv s) (hc : s.Closed c)
    (h : Run HeldStep Run.Always s es s')
    : s'.Closed c ∧ (s'.channels c).closeFlag = (s.channels c).closeFlag := by
  have hall : ReadInv s' ∧ s'.Closed c ∧ (s'.channels c).closeFlag = (s.channels c).closeFlag := by
    apply h.invariant ⟨hinv, hc, rfl⟩
    rintro s₁ e s₂ ⟨hinv₁, hc₁, hflag⟩ _ hstep
    rcases advances_step hstep hinv₁ with ⟨hinv₂, hlater⟩
    rcases hlater.closed hinv₁ hc₁ with ⟨hc₂, hflag'⟩
    exact ⟨hinv₂, hc₂, hflag'.trans hflag⟩
  exact hall.2

/--
After `close` on a channel no `send` queues a request any more, in any later state, exactly when
`close` found sends pending and left the flag.
-/
theorem silent_iff {queueSize : Nat} {es es' : List Event}
    (h : Run HeldStep Run.Always (init queueSize) es s) (hc : s.Closed c)
    (h' : Run HeldStep Run.Always s es' s') (view : List Byte) (heap : Int → Byte)
    : (s'.send c view heap).sendQue = s'.sendQue ↔ (s.channels c).closeFlag = true := by
  rw [send_sendQue_iff]
  rw [(closed_of_run (readInv_of_run h) hc h').2]

instance (s : Uring) (e : Event) : Decidable (s.HeldEnabled e) :=
  match e with
  | .addNewFd _ _ => inferInstanceAs (Decidable (_ = _))
  | .send _ _ _ => inferInstanceAs (Decidable (_ < _))
  | .beginRecv => isTrue trivial
  | .beginSend => isTrue trivial
  | .complete _ => inferInstanceAs (Decidable (_ < _))

instance (s : Uring) (c : ChannelId) : Decidable (s.Closed c) := by
  unfold Closed
  infer_instance

def heldNext? (s : Uring) (e : Event) : Option Uring :=
  if s.HeldEnabled e then (s.step e).toOption else none

theorem heldStep_of_heldNext? (s : Uring) (e : Event) (s' : Uring) (h : s.heldNext? e = some s')
    : HeldStep s e s' := by
  unfold heldNext? at h
  split at h
  . rename_i henabled
    refine ⟨henabled, ?_⟩
    cases hstep : s.step e with
    | error _ =>
      rw [hstep] at h
      cases h
    | ok s'' =>
      rw [hstep] at h
      cases h
      rfl
  . cases h

-- the peer closes the connection, after a `send` or before one
def closing (sends : List Event) : List Event :=
  [.addNewFd 5 zeroHeap, .beginRecv] ++ sends ++ [completes 0 0]

theorem run_closing {sends : List Event} {flag : Bool}
    (h : (Run.execute heldNext? Run.Always (init 8) (closing sends)).map
      (fun s => (decide (s.Closed 0), (s.channels 0).closeFlag)) = some (true, flag))
    : ∃ s, Run HeldStep Run.Always (init 8) (closing sends) s ∧ s.Closed 0 ∧
        (s.channels 0).closeFlag = flag := by
  rcases Option.map_eq_some_iff.mp h with ⟨s, hs, heq⟩
  simp only [Prod.mk.injEq, decide_eq_true_eq] at heq
  exact ⟨s, Run.of_execute heldStep_of_heldNext? hs, heq.1, heq.2⟩

theorem silent_iff_pending
    : ∃ s,
        Run HeldStep Run.Always (init 8) (closing [.send 0 [1] zeroHeap]) s ∧ s.Closed 0 ∧
        (s.send 0 [2] zeroHeap).sendQue = s.sendQue := by
  have hrun : (Run.execute heldNext? Run.Always (init 8) (closing [.send 0 [1] zeroHeap])).map
      (fun s => (decide (s.Closed 0), (s.channels 0).closeFlag)) = some (true, true) := by
    decide +kernel
  rcases run_closing hrun with ⟨s, hrun, hclosed, hflag⟩
  exact ⟨s, hrun, hclosed, (silent_iff hrun hclosed .nil [2] zeroHeap).mpr hflag⟩

-- a channel that was removed at once still accepts bytes
theorem not_silent_removed
    : ¬∀ (queueSize : Nat) (es es' : List Event) (s s' : Uring) (c : ChannelId) (view : List Byte)
        (heap : Int → Byte),
        Run HeldStep Run.Always (init queueSize) es s → s.Closed c →
        Run HeldStep Run.Always s es' s' → (s'.send c view heap).sendQue = s'.sendQue := by
  intro hall
  have hrun : (Run.execute heldNext? Run.Always (init 8) (closing [])).map
      (fun s => (decide (s.Closed 0), (s.channels 0).closeFlag)) = some (true, false) := by
    decide +kernel
  rcases run_closing hrun with ⟨s, hrun, hclosed, hflag⟩
  have hsilent := hall 8 _ [] s s 0 [1] zeroHeap hrun hclosed .nil
  rw [send_sendQue_iff, hflag] at hsilent
  cases hsilent

-- the bytes are submitted on the connection that has the number by then
example
    : (Run.execute heldNext? Run.Always (init 8)
        (closing [] ++ [.send 0 [1] zeroHeap, .addNewFd 5 zeroHeap, .beginSend])).map
        (fun s => s.ring.map fun r => (r.eventType, r.clientSocket, r.channel, r.ptr.channel))
        =
      some [(.write, 5, 1, 0)] := by
  decide +kernel

end Uring
end Fish
