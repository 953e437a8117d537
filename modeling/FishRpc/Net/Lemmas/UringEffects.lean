import FishRpc.Net.Lemmas.Uring

/-!
This module contains what the steps of the loop can do. Closing a channel and resuming its coroutine
are `Quiet`: apart from the connection map they touch the flags, the receive buffer and the recorded
handles of one channel and may queue a `READ`. A submission moves requests from a queue to the ring.
-/

namespace Fish
namespace Uring

structure Quiet (c : ChannelId) (s s' : Uring) : Prop where
  ring : s'.ring = s.ring
  freeNum : s'.freeNum = s.freeNum
  sendQue : s'.sendQue = s.sendQue
  next : s'.next = s.next
  given : s'.given = s.given
  accepted : s'.accepted = s.accepted
  sendBuf : ∀ c', (s'.channels c').sendBuf = (s.channels c').sendBuf
  task : ∀ c', (s'.channels c').task = (s.channels c').task
  closeFlag : ∀ c', (s'.channels c').closeFlag = false → (s.channels c').closeFlag = false
  handles : ∃ n, s'.handles = s.handles ++ List.replicate n (c, (s.channels c).task.handler)

variable {c : ChannelId} {s s' s'' : Uring}

theorem Quiet.trans (h : Quiet c s s') (h' : Quiet c s' s'') : Quiet c s s'' where
  ring := h'.ring.trans h.ring
  freeNum := h'.freeNum.trans h.freeNum
  sendQue := h'.sendQue.trans h.sendQue
  next := h'.next.trans h.next
  given := h'.given.trans h.given
  accepted := h'.accepted.trans h.accepted
  sendBuf c' := (h'.sendBuf c').trans (h.sendBuf c')
  task c' := (h'.task c').trans (h.task c')
  closeFlag c' hopen := h.closeFlag c' (h'.closeFlag c' hopen)
  handles := by
    rcases h.handles with ⟨n, hn⟩
    rcases h'.handles with ⟨n', hn'⟩
    refine ⟨n + n', ?_⟩
    rw [hn', hn]
    rw [h.task c]
    rw [List.append_assoc]
    rw [List.replicate_append_replicate]

theorem Quiet.modify (s : Uring) (c : ChannelId) (f : Channel → Channel)
    (hf : ∀ ch, (f ch).sendBuf = ch.sendBuf ∧ (f ch).task = ch.task ∧
      ((f ch).closeFlag = false → ch.closeFlag = false))
    : Quiet c s (s.modify c f) where
  ring := rfl
  freeNum := rfl
  sendQue := rfl
  next := rfl
  given := rfl
  accepted := rfl
  sendBuf c' := by
    by_cases hc : c' = c
    . rw [hc, modify_channels_self]
      exact (hf _).1
    . rw [modify_channels_of_ne s f hc]
  task c' := by
    by_cases hc : c' = c
    . rw [hc, modify_channels_self]
      exact (hf _).2.1
    . rw [modify_channels_of_ne s f hc]
  closeFlag c' := by
    by_cases hc : c' = c
    . rw [hc, modify_channels_self]
      exact (hf _).2.2
    . rw [modify_channels_of_ne s f hc]
      exact id
  handles := ⟨0, by simp [Uring.modify]⟩

theorem quiet_addReadRequest (s : Uring) (c : ChannelId) (fd : Int)
    : Quiet c s (s.addReadRequest fd) :=
  ⟨rfl, rfl, rfl, rfl, rfl, rfl, fun _ => rfl, fun _ => rfl, fun _ => id,
    ⟨0, (List.append_nil _).symm⟩⟩

theorem quiet_useHandle (s : Uring) (c : ChannelId) : Quiet c s (s.useHandle c) :=
  ⟨rfl, rfl, rfl, rfl, rfl, rfl, fun _ => rfl, fun _ => rfl, fun _ => id, ⟨1, rfl⟩⟩

theorem quiet_removeFd (h : s.removeFd c = .ok s') : Quiet c s s' := by
  unfold removeFd at h
  simp only at h
  split at h
  . cases h
  . split at h
    . cases h
      exact ⟨rfl, rfl, rfl, rfl, rfl, rfl, fun _ => rfl, fun _ => rfl, fun _ => id,
        ⟨0, (List.append_nil _).symm⟩⟩
    . cases h

theorem quiet_close (h : s.close c = .ok s') : Quiet c s s' := by
  unfold close at h
  split at h
  . cases h
    apply Quiet.modify
    intro ch
    exact ⟨rfl, rfl, fun hclose => by cases hclose⟩
  . exact (quiet_useHandle s c).trans (quiet_removeFd h)

theorem quiet_reduseSend (h : s.reduseSend c = .ok s') : Quiet c s s' := by
  have hdec : Quiet c s (s.modify c fun ch => { ch with sendFlag := ch.sendFlag - 1 }) :=
    Quiet.modify s c _ fun _ => ⟨rfl, rfl, id⟩
  unfold reduseSend at h
  split at h
  . simp only at h
    split at h
    . apply hdec.trans (quiet_close h)
    . cases h
      exact hdec
  . cases h

-- the coroutine is resumed before anything else happens
theorem quiet_resumed {consumed : Nat} (h : s.resume c consumed = .ok s')
    : Quiet c (s.useHandle c) s' := by
  unfold resume at h
  simp only at h
  split at h
  . exact quiet_close h
  . cases h
    have herase
        : Quiet c (s.useHandle c) ((s.useHandle c).modify c fun ch => ch.eraseRead consumed) :=
      Quiet.modify _ c _ fun _ => ⟨rfl, rfl, id⟩
    exact herase.trans (quiet_addReadRequest _ c _)

theorem quiet_resume {consumed : Nat} (h : s.resume c consumed = .ok s') : Quiet c s s' :=
  (quiet_useHandle s c).trans (quiet_resumed h)

theorem ok_of_bind {α β : Type} {x : Except Failure α} {f : α → Except Failure β} {b : β}
    (h : x.bind f = .ok b) : ∃ a, x = .ok a ∧ f a = .ok b := by
  cases x with
  | error _ => cases h
  | ok a => exact ⟨a, rfl, h⟩

theorem ok_of_map {f : Uring → Uring} {result : Except Failure Uring} (h : result.map f = .ok s')
    : ∃ s, result = .ok s ∧ s' = f s := by
  cases result with
  | error _ => cases h
  | ok s =>
    cases h
    exact ⟨s, rfl, rfl⟩

theorem complete_of_read {e : Completion} {r : UringRequest} (hr : s.ring[e.index]? = some r)
    (htype : r.eventType = .read)
    : s.complete e = (s.without e.index).readCompletion r e := by
  unfold complete
  simp only [hr, htype]
  rfl

theorem complete_of_write {e : Completion} {r : UringRequest} (hr : s.ring[e.index]? = some r)
    (htype : r.eventType = .write)
    : s.complete e = (s.without e.index).writeCompletion r e := by
  unfold complete
  simp only [hr, htype]
  rfl

-- the result of a `WRITE` is erased from the send buffer of the channel that is connected
def erased (s : Uring) (r : UringRequest) (e : Completion) (c : ChannelId) : Uring :=
  (s.accept r e).modify c fun ch => ch.eraseWrite (intToSize e.res)

theorem writeCompletion_cases {e : Completion} {r : UringRequest}
    (h : s.writeCompletion r e = .ok s')
    : ∃ c, s.connections r.clientSocket = some c ∧
        ((∃ fd buf size, s' = (s.erased r e c).addWriteRequest fd buf size) ∨
          ∃ s₁, (s.erased r e c).reduseSend c = .ok s₁ ∧ s' = s₁.freeSlot) := by
  unfold writeCompletion at h
  simp only at h
  split at h
  . cases h
  . rename_i c hfd
    refine ⟨c, hfd, ?_⟩
    split at h
    . cases h
      exact Or.inl ⟨_, _, _, rfl⟩
    . rcases ok_of_map h with ⟨s₁, hs₁, hs'⟩
      exact Or.inr ⟨s₁, hs₁, hs'⟩

-- the kernel has received the bytes of a `READ`
def stored (s : Uring) (r : UringRequest) (e : Completion) : Uring :=
  s.modify r.channel fun ch => ch.store r.ptr ((List.range e.res.toNat).map e.data)

def arrived (s : Uring) (r : UringRequest) (e : Completion) : Uring :=
  (s.stored r e).modify r.channel fun ch => ch.alreadyRead (intToSize e.res)

theorem readCompletion_eq {r : UringRequest} (e : Completion)
    (hfd : s.connections r.clientSocket = some c)
    : s.readCompletion r e
        =
      if e.res ≤ 0 ∧ e.errno = 0 then
        ((s.stored r e).close r.channel).map freeSlot
      else
        ((s.arrived r e).resume r.channel e.consumed).map freeSlot := by
  have hstored : (s.stored r e).connections r.clientSocket = some c := hfd
  unfold stored at hstored
  unfold readCompletion
  simp only [hstored]
  rfl

theorem resume_of_empty (consumed : Nat) (hempty : (s.channels c).dispReadBuf.size = 0)
    : s.resume c consumed = (s.useHandle c).close c := by
  have hhandle : ((s.useHandle c).channels c).dispReadBuf.size = 0 := hempty
  unfold resume
  simp only [if_pos hhandle]

theorem resume_of_unread (consumed : Nat) (hunread : (s.channels c).dispReadBuf.size ≠ 0)
    : s.resume c consumed
        =
      .ok (((s.useHandle c).modify c fun ch => ch.eraseRead consumed).addReadRequest
        (s.channels c).fd) := by
  have hhandle : ((s.useHandle c).channels c).dispReadBuf.size ≠ 0 := hunread
  unfold resume
  simp only [if_neg hhandle, modify_channels_self]
  rfl

/--
A `READ` completion frees the slot of its request.
-/
theorem complete_read {e : Completion} {r : UringRequest} (hr : s.ring[e.index]? = some r)
    (htype : r.eventType = .read) (h : s.complete e = .ok s')
    : ∃ s₁, Quiet r.channel (s.without e.index) s₁ ∧ s' = s₁.freeSlot := by
  rw [complete_of_read hr htype] at h
  unfold readCompletion at h
  simp only at h
  have hstore : Quiet r.channel (s.without e.index) ((s.without e.index).modify r.channel
      fun ch => ch.store r.ptr ((List.range e.res.toNat).map e.data)) := by
    apply Quiet.modify
    intro ch
    unfold Channel.store
    split
    . exact ⟨rfl, rfl, id⟩
    . exact ⟨rfl, rfl, id⟩
  split at h
  . cases h
  . split at h
    . rcases ok_of_map h with ⟨s₁, hclose, hs'⟩
      exact ⟨s₁, hstore.trans (quiet_close hclose), hs'⟩
    . rcases ok_of_map h with ⟨s₁, hresume, hs'⟩
      refine ⟨s₁, hstore.trans (Quiet.trans ?_ (quiet_resume hresume)), hs'⟩
      exact Quiet.modify _ _ _ fun _ => ⟨rfl, rfl, id⟩

theorem written_channels_self (s : Uring) (r : UringRequest) (e : Completion)
    : (s.written r e).channels r.channel
        =
      (s.channels r.channel).eraseWrite (intToSize e.res) :=
  modify_channels_self _ _ _

theorem written_channels_of_ne (s : Uring) {r : UringRequest} (e : Completion) {c : ChannelId}
    (hc : c ≠ r.channel) : (s.written r e).channels c = s.channels c :=
  modify_channels_of_ne _ _ hc

-- the branch in which the completion handler finds bytes that it takes for unsent ones
def Requeues (s : Uring) (e : Completion) : Prop :=
  ∃ r c, s.ring[e.index]? = some r ∧ r.eventType = .write ∧
    s.connections r.clientSocket = some c ∧ (s.channels c).dispWriteBuf.size > 0

theorem requeues_iff {e : Completion} {r : UringRequest} (hr : s.ring[e.index]? = some r)
    (htype : r.eventType = .write) (hc : s.connections r.clientSocket = some c)
    : s.Requeues e ↔ (s.channels c).dispWriteBuf.size > 0 := by
  constructor
  . intro h
    rcases h with ⟨r', c', hr', _, hc', hsize⟩
    rw [hr] at hr'
    cases hr'
    rw [hc] at hc'
    cases hc'
    exact hsize
  . intro h
    exact ⟨r, c, hr, htype, hc, h⟩

theorem written_readBuf (s : Uring) (r : UringRequest) (e : Completion) (c : ChannelId)
    : ((s.written r e).channels c).readBuf = (s.channels c).readBuf := by
  by_cases hc : c = r.channel
  . rw [hc, written_channels_self]
    rfl
  . rw [written_channels_of_ne s e hc]

theorem written_task (s : Uring) (r : UringRequest) (e : Completion) (c : ChannelId)
    : ((s.written r e).channels c).task = (s.channels c).task := by
  by_cases hc : c = r.channel
  . rw [hc, written_channels_self]
    rfl
  . rw [written_channels_of_ne s e hc]

/--
A `WRITE` completion either queues a request into the receive buffer or frees its slot.
-/
theorem complete_write (hinv : Inv s) {e : Completion} {r : UringRequest}
    (hr : s.ring[e.index]? = some r) (htype : r.eventType = .write) (h : s.complete e = .ok s')
    : (s.Requeues e ∧
        ∃ fd buf size, buf.channel = r.channel ∧ buf.side = .readBuf ∧
          s' = ((s.without e.index).written r e).addWriteRequest fd buf size) ∨
      (¬s.Requeues e ∧
        ∃ s₁, Quiet r.channel ((s.without e.index).written r e) s₁ ∧ s' = s₁.freeSlot) := by
  have hc := (hinv.ring r (List.mem_of_getElem? hr)).1
  have hwithout : (s.without e.index).connections r.clientSocket = some r.channel := hc
  have hview : (((s.without e.index).written r e).channels r.channel).dispWriteBuf
      = (s.channels r.channel).dispWriteBuf := by
    unfold Channel.dispWriteBuf
    rw [written_readBuf]
    rfl
  rw [requeues_iff hr htype hc]
  rw [complete_of_write hr htype] at h
  rw [writeCompletion_eq e hwithout] at h
  simp only [hview] at h
  split at h
  . cases h
    exact Or.inl ⟨by assumption, _, _, _, rfl, rfl, rfl⟩
  . rcases ok_of_map h with ⟨s₁, hreduse, hs'⟩
    exact Or.inr ⟨by assumption, s₁, quiet_reduseSend hreduse, hs'⟩

theorem not_requeues_of_read {e : Completion} {r : UringRequest} (hr : s.ring[e.index]? = some r)
    (htype : r.eventType = .read) : ¬s.Requeues e := by
  intro h
  rcases h with ⟨r', _, hr', htype', _⟩
  rw [hr] at hr'
  cases hr'
  rw [htype] at htype'
  cases htype'

theorem complete_cases (hinv : Inv s) {e : Completion} (hindex : e.index < s.ring.length)
    (h : s.complete e = .ok s')
    : ∃ r, s.ring[e.index]? = some r ∧
        ((r.eventType = .read ∧ ¬s.Requeues e ∧
            ∃ s₁, Quiet r.channel (s.without e.index) s₁ ∧ s' = s₁.freeSlot) ∨
          (r.eventType = .write ∧ s.Requeues e ∧
            ∃ fd buf size, buf.channel = r.channel ∧ buf.side = .readBuf ∧
              s' = ((s.without e.index).written r e).addWriteRequest fd buf size) ∨
          (r.eventType = .write ∧ ¬s.Requeues e ∧
            ∃ s₁, Quiet r.channel ((s.without e.index).written r e) s₁ ∧ s' = s₁.freeSlot)) := by
  have hr : s.ring[e.index]? = some s.ring[e.index] := List.getElem?_eq_getElem hindex
  refine ⟨_, hr, ?_⟩
  cases htype : s.ring[e.index].eventType with
  | read =>
    exact Or.inl ⟨rfl, not_requeues_of_read hr htype, complete_read hr htype h⟩
  | write =>
    rcases complete_write hinv hr htype h with hrequeued | hfreed
    . exact Or.inr (Or.inl ⟨rfl, hrequeued⟩)
    . exact Or.inr (Or.inr ⟨rfl, hfreed⟩)

theorem addNewFd_cases {fd : Int} {heap : Int → Byte} (h : s.addNewFd fd heap = .ok s')
    : s' = (s.opened fd heap).addReadRequest fd := by
  cases hfd : s.connections fd with
  | none =>
    rw [addNewFd_eq heap hfd] at h
    cases h
    rfl
  | some c =>
    unfold addNewFd at h
    rw [hfd] at h
    cases h

theorem sent_channels_self (s : Uring) (c : ChannelId) (view : List Byte) (heap : Int → Byte)
    : (s.sent c view heap).channels c
        =
      { s.channels c with
        sendBuf := (s.channels c).sendBuf.input view heap
        sendFlag := (s.channels c).sendFlag + 1 } := by
  simp [sent, addWriteRequest]

theorem sent_channels_of_ne (s : Uring) {c c' : ChannelId} (view : List Byte) (heap : Int → Byte)
    (hc : c' ≠ c) : (s.sent c view heap).channels c' = s.channels c' := by
  simp [sent, addWriteRequest, modify, hc]

/-! ### Submissions -/

def slotsForRecv (s : Uring) : Nat := min s.recvQue.length s.freeNum
def slotsForSend (s : Uring) : Nat := min s.sendQue.length s.freeNum

theorem takeRecv_eq (s : Uring)
    : s.takeRecv
        =
      (s.recvQue.take s.slotsForRecv,
        { s with
          recvQue := s.recvQue.drop s.slotsForRecv
          freeNum := s.freeNum - s.slotsForRecv }) := by
  unfold takeRecv slotsForRecv
  simp only
  split
  . rw [Nat.min_eq_left (by assumption)]
    simp
  . rw [Nat.min_eq_right (by omega)]
    simp

theorem takeSend_eq (s : Uring)
    : s.takeSend
        =
      (s.sendQue.take s.slotsForSend,
        { s with
          sendQue := s.sendQue.drop s.slotsForSend
          freeNum := s.freeNum - s.slotsForSend }) := by
  unfold takeSend slotsForSend
  simp only
  split
  . rw [Nat.min_eq_left (by assumption)]
    simp
  . rw [Nat.min_eq_right (by omega)]
    simp

-- a receive into the window that the channel has at that moment
structure Receives (s : Uring) (r : UringRequest) : Prop where
  eventType : r.eventType = .read
  channel : s.connections r.clientSocket = some r.channel
  len : r.len = (s.channels r.channel).readBuf.disWrite.size

-- the pointer is the start of that window
structure Windowed (s : Uring) (r : UringRequest) : Prop extends Receives s r where
  ptr : r.ptr
    =
    ⟨r.channel, .readBuf, (s.channels r.channel).readBuf.storage,
      (s.channels r.channel).readBuf.disWrite.offset⟩

theorem Windowed.congr {r : UringRequest} (h : Windowed s r)
    (hconnections : s.connections = s'.connections) (hchannels : s.channels = s'.channels)
    : Windowed s' r where
  eventType := h.eventType
  channel := by
    rw [← hconnections]
    exact h.channel
  len := by
    rw [← hchannels]
    exact h.len
  ptr := by
    rw [← hchannels]
    exact h.ptr

theorem submitRecv_cases {fd : Int} (h : s.submitRecv fd = .ok s')
    : ∃ r, s' = s.submitted r ∧ r.clientSocket = fd ∧ Windowed s r := by
  unfold submitRecv at h
  cases hc : s.connections fd with
  | none =>
    simp only [hc] at h
    cases h
  | some c =>
    simp only [hc] at h
    split at h
    . cases h
      exact ⟨_, rfl, rfl, ⟨rfl, hc, rfl⟩, rfl⟩
    . cases h

theorem foldlM_submitRecv {temp : List Int} (h : temp.foldlM submitRecv s = .ok s')
    : ∃ rs, s' = { s with ring := s.ring ++ rs } ∧ rs.map UringRequest.clientSocket = temp ∧
        ∀ r ∈ rs, Windowed s r := by
  induction temp generalizing s with
  | nil =>
    cases h
    exact ⟨[], by simp, rfl, by simp⟩
  | cons fd temp ih =>
    rw [List.foldlM_cons] at h
    rcases ok_of_bind h with ⟨s₁, hsubmit, hrest⟩
    rcases submitRecv_cases hsubmit with ⟨r, hs₁, hfd, hr⟩
    rcases ih hrest with ⟨rs, hs', htemp, hrs⟩
    rw [hs₁] at hs' hrs
    refine ⟨r :: rs, ?_, ?_, ?_⟩
    . rw [hs']
      simp [submitted]
    . rw [List.map_cons, hfd, htemp]
    . exact List.forall_mem_cons.mpr ⟨hr, fun r' hr' => (hrs r' hr').congr rfl rfl⟩

def queued (r : UringRequest) : SendRequest :=
  ⟨r.clientSocket, r.ptr, r.len⟩

theorem submitSend_cases {q : SendRequest} (h : s.submitSend q = .ok s')
    : ∃ r, s' = s.submitted r ∧ queued r = q ∧ r.eventType = .write := by
  unfold submitSend at h
  split at h
  . cases h
  . cases h
    exact ⟨_, rfl, rfl, rfl⟩

theorem foldlM_submitSend {temp : List SendRequest} (h : temp.foldlM submitSend s = .ok s')
    : ∃ rs, s' = { s with ring := s.ring ++ rs } ∧ rs.map queued = temp ∧
        ∀ r ∈ rs, r.eventType = .write := by
  induction temp generalizing s with
  | nil =>
    cases h
    exact ⟨[], by simp, rfl, by simp⟩
  | cons q temp ih =>
    rw [List.foldlM_cons] at h
    rcases ok_of_bind h with ⟨s₁, hsubmit, hrest⟩
    rcases ih hrest with ⟨rs, hs', htemp, hwrite⟩
    rcases submitSend_cases hsubmit with ⟨r, hs₁, hq, htype⟩
    refine ⟨r :: rs, ?_, ?_, ?_⟩
    . rw [hs', hs₁]
      simp [submitted]
    . rw [List.map_cons, hq, htemp]
    . exact List.forall_mem_cons.mpr ⟨htype, hwrite⟩

theorem beginRecv_cases (h : s.beginRecv = .ok s')
    : ∃ rs, rs.map UringRequest.clientSocket = s.recvQue.take s.slotsForRecv ∧
        (∀ r ∈ rs, Windowed s r) ∧
        s' =
          { s with
            recvQue := s.recvQue.drop s.slotsForRecv
            freeNum := s.freeNum - s.slotsForRecv
            ring := s.ring ++ rs } := by
  unfold beginRecv at h
  rw [takeRecv_eq] at h
  rcases foldlM_submitRecv h with ⟨rs, hs', htemp, hrs⟩
  exact ⟨rs, htemp, fun r hr => (hrs r hr).congr rfl rfl, hs'⟩

theorem beginSend_cases (h : s.beginSend = .ok s')
    : ∃ rs, rs.map queued = s.sendQue.take s.slotsForSend ∧
        (∀ r ∈ rs, r.eventType = .write) ∧
        s' =
          { s with
            sendQue := s.sendQue.drop s.slotsForSend
            freeNum := s.freeNum - s.slotsForSend
            ring := s.ring ++ rs } := by
  unfold beginSend at h
  rw [takeSend_eq] at h
  rcases foldlM_submitSend h with ⟨rs, hs', htemp, hwrite⟩
  exact ⟨rs, htemp, hwrite, hs'⟩

end Uring
end Fish
