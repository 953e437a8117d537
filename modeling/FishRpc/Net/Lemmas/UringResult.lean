import FishRpc.Net.Lemmas.BufferResult
import FishRpc.Net.Lemmas.UringClosed

/-!
This module contains what a completion does with its result. The handler passes the signed result on
as a `size_t` and looks at `errno`, which has nothing to do with it: a failed `READ` moves the write
index back, and no failed `WRITE` closes its channel.
-/

namespace Fish
namespace Uring

variable {s s' : Uring} {c : ChannelId} {r : UringRequest} {e : Completion}

/-! ### Effects -/

structure SameBuffers (s s' : Uring) : Prop where
  readBuf : ∀ c, (s'.channels c).readBuf = (s.channels c).readBuf
  sendBuf : ∀ c, (s'.channels c).sendBuf = (s.channels c).sendBuf

theorem SameBuffers.trans {s'' : Uring} (h : SameBuffers s s') (h' : SameBuffers s' s'')
    : SameBuffers s s'' :=
  ⟨fun c => (h'.readBuf c).trans (h.readBuf c), fun c => (h'.sendBuf c).trans (h.sendBuf c)⟩

theorem SameBuffers.modify (s : Uring) (c : ChannelId) (f : Channel → Channel)
    (hf : (f (s.channels c)).readBuf = (s.channels c).readBuf ∧
      (f (s.channels c)).sendBuf = (s.channels c).sendBuf)
    : SameBuffers s (s.modify c f) where
  readBuf c' := by
    by_cases hc : c' = c
    . rw [hc, modify_channels_self]
      exact hf.1
    . rw [modify_channels_of_ne s f hc]
  sendBuf c' := by
    by_cases hc : c' = c
    . rw [hc, modify_channels_self]
      exact hf.2
    . rw [modify_channels_of_ne s f hc]

theorem sameBuffers_removeFd (h : s.removeFd c = .ok s') : SameBuffers s s' := by
  unfold removeFd at h
  simp only at h
  split at h
  . cases h
  . split at h
    . cases h
      exact ⟨fun _ => rfl, fun _ => rfl⟩
    . cases h

theorem sameBuffers_close (h : s.close c = .ok s') : SameBuffers s s' := by
  unfold close at h
  split at h
  . cases h
    apply SameBuffers.modify s c _ ⟨rfl, rfl⟩
  . have hremove := sameBuffers_removeFd h
    exact ⟨hremove.readBuf, hremove.sendBuf⟩

theorem sameBuffers_reduseSend (h : s.reduseSend c = .ok s') : SameBuffers s s' := by
  have hdec := SameBuffers.modify s c (fun ch => { ch with sendFlag := ch.sendFlag - 1 }) ⟨rfl, rfl⟩
  unfold reduseSend at h
  split at h
  . simp only at h
    split at h
    . apply hdec.trans (sameBuffers_close h)
    . cases h
      exact hdec
  . cases h

-- a connected channel has been closed only if it is waiting for pending sends
theorem ReadInv.closed_iff (h : ReadInv s) {fd : Int} (hfd : s.connections fd = some c)
    : s.Closed c ↔ (s.channels c).closeFlag = true := by
  constructor
  . rintro ⟨_, hflag | ⟨x, hx, rfl⟩⟩
    . exact hflag
    . exact absurd hfd (h.removed hx fd)
  . intro hflag
    exact ⟨Inv.fresh h fd c hfd, Or.inl hflag⟩

theorem closed_reduseSend (hinv : ReadInv s) {fd : Int} (hfd : s.connections fd = some c)
    (h : s.reduseSend c = .ok s') : s'.Closed c ↔ (s.channels c).closeFlag = true := by
  have hdec := SameReads.modify s c (fun ch => { ch with sendFlag := ch.sendFlag - 1 }) ⟨rfl, rfl⟩
  unfold reduseSend at h
  split at h
  . simp only at h
    split at h
    . rename_i hlast
      apply iff_of_true
      . refine (closed_of_close ?_ h).1
        apply Inv.fresh hinv fd c hfd
      . rw [← (hdec.channels c).2]
        exact hlast.2
    . cases h
      rw [(hinv.congr hdec).closed_iff hfd]
      rw [(hdec.channels c).2]
  . cases h

-- the bytes that the kernel has received
def received (e : Completion) : List Byte := (List.range e.res.toNat).map e.data

-- the receive buffer that the coroutine is resumed with
def handed (s : Uring) (r : UringRequest) (e : Completion) : Buffer :=
  (((s.channels r.channel).store r.ptr (received e)).alreadyRead (intToSize e.res)).readBuf

theorem arrived_readBuf (s : Uring) (r : UringRequest) (e : Completion)
    : (((s.without e.index).arrived r e).channels r.channel).readBuf = s.handed r e := by
  unfold arrived stored
  rw [modify_channels_self]
  rw [modify_channels_self]
  rfl

theorem arrived_of_ne (s : Uring) (e : Completion) (hc : c ≠ r.channel)
    : ((s.without e.index).arrived r e).channels c = s.channels c := by
  unfold arrived stored
  rw [modify_channels_of_ne _ _ hc]
  rw [modify_channels_of_ne _ _ hc]
  rfl

theorem closeFlag_arrived (s : Uring) (r : UringRequest) (e : Completion)
    : (((s.without e.index).arrived r e).channels r.channel).closeFlag
        =
      (s.channels r.channel).closeFlag :=
  ((sameReads_arrived (s.without e.index) r e).channels r.channel).2

theorem stored_of_ne (s : Uring) (e : Completion) (hc : c ≠ r.channel)
    : ((s.without e.index).stored r e).channels c = s.channels c := by
  unfold stored
  rw [modify_channels_of_ne _ _ hc]
  rfl

theorem resume_effect {consumed : Nat} (hunread : (s.channels c).dispReadBuf.size ≠ 0)
    (h : s.resume c consumed = .ok s')
    : s'.connections = s.connections ∧ s'.channels c = (s.channels c).eraseRead consumed ∧
      ∀ c', c' ≠ c → s'.channels c' = s.channels c' := by
  rw [resume_of_unread consumed hunread] at h
  cases h
  refine ⟨rfl, ?_, ?_⟩
  . exact modify_channels_self (s.useHandle c) c fun ch => ch.eraseRead consumed
  . intro c' hc
    exact modify_channels_of_ne (s.useHandle c) (fun ch => ch.eraseRead consumed) hc

/--
A completed `READ` either closes the channel or resumes its coroutine, which erases from the buffer
that it is handed.
-/
theorem complete_read_effect (hinv : ReadInv s) (hr : s.ring[e.index]? = some r)
    (htype : r.eventType = .read) (h : s.complete e = .ok s')
    : (∀ c, c ≠ r.channel → (s'.channels c).readBuf = (s.channels c).readBuf) ∧
      ((e.res ≤ 0 ∧ e.errno = 0 ∧ s'.Closed r.channel ∧
          (s'.channels r.channel).readBuf
            = ((s.channels r.channel).store r.ptr (received e)).readBuf) ∨
        (¬(e.res ≤ 0 ∧ e.errno = 0) ∧ (s.handed r e).disRead.size = 0 ∧ s'.Closed r.channel ∧
          (s'.channels r.channel).readBuf = s.handed r e) ∨
        (¬(e.res ≤ 0 ∧ e.errno = 0) ∧ (s.handed r e).disRead.size ≠ 0 ∧ ¬s'.Closed r.channel ∧
          (s'.channels r.channel).readBuf = (s.handed r e).eraseData e.consumed)) := by
  rcases hinv.single hr htype with ⟨hfd, _, hopen⟩
  have hlt : r.channel < s.next := Inv.fresh hinv _ _ hfd
  have hfd' : (s.without e.index).connections r.clientSocket = some r.channel := hfd
  have hinv' : ReadInv s' := (advances_complete h hinv).1
  have harrived := arrived_readBuf s r e
  rw [complete_of_read hr htype] at h
  rw [readCompletion_eq e hfd'] at h
  split at h
  . rename_i hclose
    rcases ok_of_map h with ⟨s₁, hs₁, rfl⟩
    have hsame := sameBuffers_close hs₁
    have hlt' : r.channel < ((s.without e.index).stored r e).next := hlt
    have hclosed := (closed_of_close hlt' hs₁).1
    refine ⟨?_, Or.inl ⟨hclose.1, hclose.2, hclosed, ?_⟩⟩
    . intro c hc
      rw [← stored_of_ne s e hc]
      apply hsame.readBuf
    . refine (hsame.readBuf r.channel).trans ?_
      unfold stored
      rw [modify_channels_self]
      rfl
  . rename_i hopened
    rcases ok_of_map h with ⟨s₁, hs₁, rfl⟩
    by_cases hsize : (s.handed r e).disRead.size = 0
    . rw [resume_of_empty] at hs₁
      . have hsame := sameBuffers_close hs₁
        have hlt' : r.channel < (((s.without e.index).arrived r e).useHandle r.channel).next := hlt
        have hclosed := (closed_of_close hlt' hs₁).1
        refine ⟨?_, Or.inr (Or.inl ⟨hopened, hsize, hclosed, ?_⟩)⟩
        . intro c hc
          rw [← arrived_of_ne s e hc]
          apply hsame.readBuf
        . exact (hsame.readBuf r.channel).trans harrived
      . unfold Channel.dispReadBuf
        rw [harrived]
        exact hsize
    . have hunread
          : (((s.without e.index).arrived r e).channels r.channel).dispReadBuf.size ≠ 0 := by
        unfold Channel.dispReadBuf
        rw [harrived]
        exact hsize
      rcases resume_effect hunread hs₁ with ⟨hconnections, hself, hother⟩
      refine ⟨?_, Or.inr (Or.inr ⟨hopened, hsize, ?_, ?_⟩)⟩
      . intro c hc
        rw [← arrived_of_ne s e hc]
        exact congrArg Channel.readBuf (hother c hc)
      . have hflag : (s₁.freeSlot.channels r.channel).closeFlag = false := by
          refine (congrArg Channel.closeFlag hself).trans ?_
          exact (closeFlag_arrived s r e).trans hopen
        have hconnected : s₁.freeSlot.connections r.clientSocket = some r.channel :=
          (congrFun hconnections _).trans hfd
        rw [hinv'.closed_iff hconnected]
        exact ne_true_of_eq_false hflag
      . rw [← harrived]
        exact congrArg Channel.readBuf hself

theorem erased_channels_self (s : Uring) (r : UringRequest) (e : Completion) (c : ChannelId)
    : ((s.without e.index).erased r e c).channels c
        =
      (s.channels c).eraseWrite (intToSize e.res) :=
  modify_channels_self _ _ _

theorem erased_channels_of_ne (s : Uring) (r : UringRequest) (e : Completion) {c c' : ChannelId}
    (hc : c' ≠ c) : ((s.without e.index).erased r e c).channels c' = s.channels c' :=
  modify_channels_of_ne _ _ hc

/--
A completed `WRITE` erases its result from the send buffer of the channel that is connected, and
this channel is closed afterwards only if it was before.
-/
theorem complete_write_effect (hinv : ReadInv s) (hr : s.ring[e.index]? = some r)
    (htype : r.eventType = .write) (h : s.complete e = .ok s')
    : ∃ c, s.connections r.clientSocket = some c ∧
        (∀ c', (s'.channels c').readBuf = (s.channels c').readBuf) ∧
        (s'.channels c).sendBuf = (s.channels c).sendBuf.eraseData (intToSize e.res) ∧
        (∀ c', c' ≠ c → (s'.channels c').sendBuf = (s.channels c').sendBuf) ∧
        (s'.Closed c ↔ (s.channels c).closeFlag = true) := by
  have hinv' : ReadInv s' := (advances_complete h hinv).1
  rw [complete_of_write hr htype] at h
  rcases writeCompletion_cases h with ⟨c, hfd, hcases⟩
  have hself := erased_channels_self s r e c
  have hother (c' : ChannelId) (hc : c' ≠ c) := erased_channels_of_ne s r e hc
  have hread (c' : ChannelId)
      : (((s.without e.index).erased r e c).channels c').readBuf = (s.channels c').readBuf := by
    by_cases hc : c' = c
    . rw [hc, hself]
      rfl
    . rw [hother c' hc]
  have hflag : (((s.without e.index).erased r e c).channels c).closeFlag
      = (s.channels c).closeFlag := by
    rw [hself]
    rfl
  have hinv₁ : ReadInv ((s.without e.index).erased r e c) :=
    (hinv.without hr).congr (sameReads_erased _ r e c)
  refine ⟨c, hfd, ?_⟩
  rcases hcases with ⟨fd, buf, size, rfl⟩ | ⟨s₁, hs₁, rfl⟩
  . refine ⟨hread, congrArg Channel.sendBuf hself, ?_, ?_⟩
    . exact fun c' hc => congrArg Channel.sendBuf (hother c' hc)
    . rw [hinv'.closed_iff hfd]
      rw [← hflag]
      rfl
  . have hsame := sameBuffers_reduseSend hs₁
    refine ⟨fun c' => (hsame.readBuf c').trans (hread c'), ?_, ?_, ?_⟩
    . exact (hsame.sendBuf c).trans (congrArg Channel.sendBuf hself)
    . exact fun c' hc => (hsame.sendBuf c').trans (congrArg Channel.sendBuf (hother c' hc))
    . have hclosed := closed_reduseSend hinv₁ hfd hs₁
      rw [hflag] at hclosed
      exact hclosed

theorem complete_ring (hr : s.ring[e.index]? = some r) (h : s.complete e = .ok s')
    : s'.ring = s.ring.eraseIdx e.index ∧ s'.next = s.next := by
  cases htype : r.eventType with
  | read =>
    rcases complete_read hr htype h with ⟨s₁, hquiet, rfl⟩
    exact ⟨hquiet.ring, hquiet.next⟩
  | write =>
    rw [complete_of_write hr htype] at h
    rcases writeCompletion_cases h with ⟨c, _, ⟨fd, buf, size, rfl⟩ | ⟨s₁, hs₁, rfl⟩⟩
    . exact ⟨rfl, rfl⟩
    . have hquiet := quiet_reduseSend hs₁
      exact ⟨hquiet.ring, hquiet.next⟩

/-! ### What a completion should do -/

-- an `int` that the kernel can report: at most the length of the request if it is a byte count; the
-- callback erases an `int` that passes the assertion
structure Reported (s : Uring) (r : UringRequest) (e : Completion) : Prop where
  int : -2 ^ 31 ≤ e.res ∧ e.res < 2 ^ 31
  le : 0 < e.res → e.res ≤ r.len
  consumed : r.eventType = .read → 0 < e.res →
    e.consumed < 2 ^ 31 ∧ (s.handed r e).EraseFits e.consumed

def Carries (s : Uring) : Event → Prop
  | .complete e => ∀ r, s.ring[e.index]? = some r → s.Reported r e
  | _ => True

def CarriedStep (s : Uring) (e : Event) (s' : Uring) : Prop :=
  HeldStep s e s' ∧ s.Carries e

-- the coroutine is handed what was unread and what has been received, and what it does not erase
-- stays unread
structure Extended (s : Uring) (r : UringRequest) (e : Completion) (s' : Uring) : Prop where
  writeIndex : (s.handed r e).writeIndex = (s.channels r.channel).readBuf.writeIndex + e.res
  readIndex : (s.handed r e).readIndex = (s.channels r.channel).readBuf.readIndex
  unread : (s.handed r e).unread = (s.channels r.channel).readBuf.unread ++ received e
  valid : (s.handed r e).Valid
  valid' : (s'.channels r.channel).readBuf.Valid
  left : (s'.channels r.channel).readBuf.unread = (s.handed r e).unread.drop e.consumed
  sendBuf : (s'.channels r.channel).sendBuf = (s.channels r.channel).sendBuf

structure Unmoved (s s' : Uring) (c : ChannelId) : Prop where
  readBuf : (s.channels c).readBuf.Unmoved (s'.channels c).readBuf
  sendBuf : (s.channels c).sendBuf.Unmoved (s'.channels c).sendBuf

-- a byte count moves one index by it, any other result moves none and closes the channel
def HandledRequest (s : Uring) (r : UringRequest) (e : Completion) (s' : Uring) : Prop :=
  match r.eventType with
  | .read =>
    (0 < e.res → s.Extended r e s') ∧
      (e.res ≤ 0 → s.Unmoved s' r.channel ∧ s'.Closed r.channel)
  | .write =>
    ∀ c, s.connections r.clientSocket = some c →
      (0 < e.res → (s.channels c).sendBuf.Erased (s'.channels c).sendBuf e.res ∧
          (s'.channels c).readBuf = (s.channels c).readBuf) ∧
        (e.res ≤ 0 → s.Unmoved s' c ∧ s'.Closed c)

def Handles (s : Uring) : Event → Prop
  | .complete e => ∀ r s', s.ring[e.index]? = some r → s.complete e = .ok s' →
    s.HandledRequest r e s'
  | _ => True

-- the results that the handler is right about
def SoundRequest (s : Uring) (r : UringRequest) (e : Completion) : Prop :=
  match r.eventType with
  | .read =>
    0 < e.res ∨ e.errno = 0 ∨ (e.res = 0 ∧ (s.channels r.channel).dispReadBuf.size = 0)
  | .write =>
    ∀ c, s.connections r.clientSocket = some c →
      let b := (s.channels c).sendBuf
      (0 < e.res ∧ b.readIndex + e.res ≤ b.writeIndex) ∨
        (e.res = 0 ∧ (s.channels c).closeFlag = true ∧
          (b.readIndex = b.writeIndex → b.readIndex = 0))

def Sound (s : Uring) : Event → Prop
  | .complete e => ∀ r, s.ring[e.index]? = some r → s.SoundRequest r e
  | _ => True

/-! ### Completions -/

-- the receive buffers are usable, and the kernel receives into their windows
structure Sized (s : Uring) : Prop where
  reads : ReadInv s
  valid : ∀ c < s.next, (s.channels c).readBuf.Valid
  window : ∀ r ∈ s.ring, r.eventType = .read → Windowed s r
  ints : ∀ c, (s.channels c).sendBuf.Ints

theorem length_received (e : Completion) : (received e).length = e.res.toNat := by
  simp [received]

theorem received_of_nonpos (h : e.res ≤ 0) : received e = [] := by
  apply List.eq_nil_of_length_eq_zero
  rw [length_received]
  omega

theorem store_nil (ch : Channel) (p : Pointer) : (ch.store p []).readBuf = ch.readBuf := by
  have hwrite : ch.readBuf.write p.offset [] = ch.readBuf := by
    unfold Buffer.write
    congr 1
    funext i
    rw [if_neg]
    simp only [List.length_nil]
    omega
  unfold Channel.store
  split
  . exact hwrite
  . rfl

theorem handed_of_nonpos (s : Uring) (r : UringRequest) (h : e.res ≤ 0)
    : s.handed r e = (s.channels r.channel).readBuf.already (intToSize e.res) := by
  unfold handed Channel.alreadyRead
  rw [received_of_nonpos h]
  rw [store_nil]

theorem handed_of_pos (hwindow : Windowed s r) (hrep : s.Reported r e) (h : 0 < e.res)
    : s.handed r e = (s.channels r.channel).readBuf.receive (received e) := by
  have hlen : intToSize e.res = (received e).length := by
    have hupper := hrep.int.2
    rw [length_received]
    unfold intToSize
    omega
  unfold handed Channel.alreadyRead Channel.store
  rw [hlen, hwindow.ptr]
  rw [if_pos rfl]
  rfl

theorem received_fits (hwindow : Windowed s r) (hrep : s.Reported r e) (h : 0 < e.res)
    : (received e).length ≤ (s.channels r.channel).readBuf.disWrite.size := by
  have hle := hrep.le h
  rw [hwindow.len] at hle
  rw [length_received]
  omega

theorem Sized.handed (hs : Sized s) (hr : s.ring[e.index]? = some r) (htype : r.eventType = .read)
    (hrep : s.Reported r e) (h : 0 < e.res)
    : (s.handed r e).Valid ∧
      (s.handed r e).unread = (s.channels r.channel).readBuf.unread ++ received e ∧
      e.consumed ≤ (s.handed r e).unread.length := by
  have hwindow := hs.window r (List.mem_of_getElem? hr) htype
  have hlt : r.channel < s.next := Inv.fresh hs.reads _ _ hwindow.channel
  have hfits := received_fits hwindow hrep h
  have heq := handed_of_pos hwindow hrep h
  have hvalid : (s.handed r e).Valid := by
    rw [heq]
    apply (hs.valid r.channel hlt).receive hfits
  refine ⟨hvalid, ?_, ?_⟩
  . rw [heq]
    apply Buffer.unread_receive (hs.valid r.channel hlt) hfits
  . rcases hrep.consumed htype h with ⟨hint, herase⟩
    have hsize := hvalid.bounded.disRead_size
    unfold Buffer.EraseFits at herase
    rw [sizeToInt_of_lt hint] at herase
    rw [Buffer.length_unread]
    omega

theorem sendBuf_of_read (hr : s.ring[e.index]? = some r) (htype : r.eventType = .read)
    (h : s.complete e = .ok s') (c : ChannelId)
    : (s'.channels c).sendBuf = (s.channels c).sendBuf := by
  rcases complete_read hr htype h with ⟨s₁, hquiet, rfl⟩
  exact hquiet.sendBuf c

theorem Sized.extended (hs : Sized s) (hr : s.ring[e.index]? = some r)
    (htype : r.eventType = .read) (hrep : s.Reported r e) (h : s.complete e = .ok s')
    (hpos : 0 < e.res) : s.Extended r e s' := by
  have hwindow := hs.window r (List.mem_of_getElem? hr) htype
  have hlt : r.channel < s.next := Inv.fresh hs.reads _ _ hwindow.channel
  have hvalid := hs.valid r.channel hlt
  rcases hs.handed hr htype hrep hpos with ⟨hhanded, hunread, hconsumed⟩
  have hlen := length_received e
  have hsize : (s.handed r e).disRead.size ≠ 0 := by
    rw [← Buffer.length_unread]
    rw [hunread, List.length_append]
    omega
  have hleft : (s'.channels r.channel).readBuf = (s.handed r e).eraseData e.consumed := by
    rcases (complete_read_effect hs.reads hr htype h).2 with hclose | hempty | hresumed
    . exact absurd hclose.1 (by omega)
    . exact absurd hempty.2.1 hsize
    . exact hresumed.2.2.2
  have hsend := sendBuf_of_read hr htype h r.channel
  have hwrite : (s.handed r e).writeIndex = (s.channels r.channel).readBuf.writeIndex + e.res := by
    have hfit := Int.le_of_lt (hvalid.room (received_fits hwindow hrep hpos))
    have hpush := hvalid.bounded.push_writeIndex hfit
    rw [handed_of_pos hwindow hrep hpos]
    refine hpush.trans ?_
    omega
  have hread : (s.handed r e).readIndex = (s.channels r.channel).readBuf.readIndex := by
    rw [handed_of_pos hwindow hrep hpos]
    rfl
  refine ⟨hwrite, hread, hunread, hhanded, ?_, ?_, hsend⟩
  . rw [hleft]
    apply hhanded.eraseData hconsumed
  . rw [hleft]
    apply Buffer.unread_eraseData hhanded.bounded hconsumed

theorem handed_of_zero (s : Uring) (r : UringRequest)
    (hvalid : (s.channels r.channel).readBuf.Valid) (h : e.res = 0)
    : s.handed r e = (s.channels r.channel).readBuf := by
  have hwrite : sizeToInt ((s.channels r.channel).readBuf.writeIndex + intToSize e.res)
      = (s.channels r.channel).readBuf.writeIndex := by
    have := hvalid.nonneg
    have := hvalid.le
    have := hvalid.lt
    have := hvalid.small
    rw [sizeToInt_add_intToSize]
    rw [h, Int.add_zero]
    apply sizeToInt_of_int
    . omega
    . omega
  rw [handed_of_nonpos s r (Int.le_of_eq h)]
  unfold Buffer.already
  rw [hwrite]

-- a negative result moves the write index
theorem handed_unmoved_iff (hvalid : (s.channels r.channel).readBuf.Valid)
    (hrep : s.Reported r e) (h : e.res ≤ 0)
    : (s.channels r.channel).readBuf.Unmoved (s.handed r e) ↔ e.res = 0 := by
  have hint := hvalid.writeIndex_int
  have hsame := sizeToInt_add_eq_iff hint hrep.int.1 hrep.int.2
  rw [← sizeToInt_add_intToSize] at hsame
  rw [handed_of_nonpos s r h]
  constructor
  . rintro ⟨_, hwrite⟩
    exact hsame.mp hwrite
  . intro hzero
    exact ⟨rfl, hsame.mpr hzero⟩

theorem Sized.failed_iff (hs : Sized s) (hr : s.ring[e.index]? = some r)
    (htype : r.eventType = .read) (hrep : s.Reported r e) (h : s.complete e = .ok s')
    (hneg : e.res ≤ 0)
    : s.Unmoved s' r.channel ∧ s'.Closed r.channel
        ↔
      e.errno = 0 ∨ (e.res = 0 ∧ (s.channels r.channel).dispReadBuf.size = 0) := by
  have hwindow := hs.window r (List.mem_of_getElem? hr) htype
  have hvalid := hs.valid r.channel (Inv.fresh hs.reads _ _ hwindow.channel)
  have hsend := sendBuf_of_read hr htype h r.channel
  have hhanded := handed_unmoved_iff hvalid hrep hneg
  have hunmoved : (s.channels r.channel).readBuf.Unmoved (s'.channels r.channel).readBuf →
      s.Unmoved s' r.channel := by
    intro hread
    exact ⟨hread, ⟨congrArg Buffer.readIndex hsend, congrArg Buffer.writeIndex hsend⟩⟩
  rcases (complete_read_effect hs.reads hr htype h).2 with
    ⟨_, herrno, hclosed, hbuf⟩ | ⟨hopen, hempty, hclosed, hbuf⟩ | ⟨hopen, hsize, hclosed, _⟩
  . apply iff_of_true
    . refine ⟨hunmoved ?_, hclosed⟩
      rw [hbuf, received_of_nonpos hneg, store_nil]
      exact ⟨rfl, rfl⟩
    . exact Or.inl herrno
  . have herrno : ¬e.errno = 0 := fun herrno => hopen ⟨hneg, herrno⟩
    rw [or_iff_right herrno]
    constructor
    . rintro ⟨⟨hread, _⟩, _⟩
      rw [hbuf] at hread
      have hzero := hhanded.mp hread
      rw [handed_of_zero s r hvalid hzero] at hempty
      exact ⟨hzero, hempty⟩
    . rintro ⟨hzero, _⟩
      refine ⟨hunmoved ?_, hclosed⟩
      rw [hbuf]
      exact hhanded.mpr hzero
  . apply iff_of_false
    . exact fun hall => hclosed hall.2
    . rintro (herrno | ⟨hzero, hempty⟩)
      . exact hopen ⟨hneg, herrno⟩
      . rw [handed_of_zero s r hvalid hzero] at hsize
        exact hsize hempty

/--
A completed `READ` is handled as it should be only if it brings bytes, `errno` happens to be 0, or
there is nothing that the coroutine could take for new bytes.
-/
theorem Sized.read_iff (hs : Sized s) (hr : s.ring[e.index]? = some r)
    (htype : r.eventType = .read) (hrep : s.Reported r e) (h : s.complete e = .ok s')
    : s.HandledRequest r e s' ↔ s.SoundRequest r e := by
  unfold HandledRequest SoundRequest
  simp only [htype]
  by_cases hpos : 0 < e.res
  . have hextended := hs.extended hr htype hrep h hpos
    apply iff_of_true
    . exact ⟨fun _ => hextended, fun hneg => absurd hpos (Int.not_lt.mpr hneg)⟩
    . exact Or.inl hpos
  . have hneg : e.res ≤ 0 := Int.not_lt.mp hpos
    rw [or_iff_right hpos]
    rw [← hs.failed_iff hr htype hrep h hneg]
    constructor
    . exact fun hhandled => hhandled.2 hneg
    . exact fun hfailed => ⟨fun hpos' => absurd hpos' hpos, fun _ => hfailed⟩

/--
A completed `WRITE` is handled as it should be only if it has sent bytes that were unsent, or if the
channel has been closed before and nothing happens to the indices.
-/
theorem Sized.write_iff (hs : Sized s) (hr : s.ring[e.index]? = some r)
    (htype : r.eventType = .write) (hrep : s.Reported r e) (h : s.complete e = .ok s')
    : s.HandledRequest r e s' ↔ s.SoundRequest r e := by
  unfold HandledRequest SoundRequest
  simp only [htype]
  rcases complete_write_effect hs.reads hr htype h with ⟨c, hfd, hread, hsend, _, hclosed⟩
  have hints := hs.ints c
  simp only [hfd, Option.some.injEq, forall_eq']
  rw [hsend, hclosed]
  by_cases hpos : 0 < e.res
  . have hzero : ¬e.res = 0 := Int.ne_of_gt hpos
    have herased := hints.erased_iff hpos hrep.int.2
    have hneg : ¬e.res ≤ 0 := Int.not_le.mpr hpos
    simp only [hpos, hzero, hneg, hread c, herased, true_and, false_and, or_false, and_true,
      forall_const, false_implies]
  . have hneg : e.res ≤ 0 := Int.not_lt.mp hpos
    have hindices := hints.unmoved_iff hrep.int.1 hneg
    have hunmoved : s.Unmoved s' c
        ↔ (s.channels c).sendBuf.Unmoved ((s.channels c).sendBuf.eraseData (intToSize e.res)) := by
      rw [← hsend]
      constructor
      . exact Unmoved.sendBuf
      . intro hsame
        refine ⟨?_, hsame⟩
        rw [hread c]
        exact ⟨rfl, rfl⟩
    simp only [hpos, hneg, hunmoved, hindices, false_and, false_or, false_implies, true_and,
      forall_const]
    constructor
    . rintro ⟨⟨hzero, hdrained⟩, hflag⟩
      exact ⟨hzero, hflag, hdrained⟩
    . rintro ⟨hzero, hflag, hdrained⟩
      exact ⟨⟨hzero, hdrained⟩, hflag⟩

/-! ### Runs -/

theorem Windowed.transfer (h : Windowed s r) (hinv : ReadInv s') (hr : r ∈ s'.ring)
    (hbuf : (s'.channels r.channel).readBuf = (s.channels r.channel).readBuf) : Windowed s' r where
  eventType := h.eventType
  channel := (hinv.ring hr h.eventType).1
  len := by
    rw [hbuf]
    exact h.len
  ptr := by
    rw [hbuf]
    exact h.ptr

-- a step that leaves the receive buffers as they are
theorem Sized.transfer (hs : Sized s) (hinv : ReadInv s') (hnext : s'.next = s.next)
    (hbuf : ∀ c, (s'.channels c).readBuf = (s.channels c).readBuf)
    (hring : ∀ r ∈ s'.ring, r.eventType = .read → r ∈ s.ring ∨ Windowed s r)
    (hints : ∀ c, (s'.channels c).sendBuf.Ints) : Sized s' where
  reads := hinv
  valid c hc := by
    rw [hbuf]
    apply hs.valid c (hnext ▸ hc)
  window r hr htype := by
    have hwindow : Windowed s r := (hring r hr htype).elim (fun hold => hs.window r hold htype) id
    exact hwindow.transfer hinv hr (hbuf r.channel)
  ints := hints

theorem Sized.addNewFd {fd : Int} {heap : Int → Byte} (hs : Sized s)
    (h : s.addNewFd fd heap = .ok s') : Sized s' := by
  have hinv : ReadInv s' := (advances_addNewFd h hs.reads).1
  rw [addNewFd_cases h] at hinv ⊢
  have hchannels (c : ChannelId) (hc : c ≠ s.next)
      : ((s.opened fd heap).addReadRequest fd).channels c = s.channels c :=
    Function.update_of_ne hc _ _
  have hnew : ((s.opened fd heap).addReadRequest fd).channels s.next = Channel.new fd 1024 heap :=
    Function.update_self _ _ _
  refine ⟨hinv, ?_, ?_, ?_⟩
  . intro c hc
    by_cases hcnew : c = s.next
    . rw [hcnew, hnew]
      apply Buffer.valid_new
      . decide
      . decide
    . rw [hchannels c hcnew]
      apply hs.valid c (Nat.lt_of_le_of_ne (Nat.le_of_lt_succ hc) hcnew)
  . intro r hr htype
    have hwindow := hs.window r hr htype
    have hlt : r.channel < s.next := Inv.fresh hs.reads _ _ hwindow.channel
    apply hwindow.transfer hinv hr
    rw [hchannels r.channel (Nat.ne_of_lt hlt)]
  . intro c
    by_cases hcnew : c = s.next
    . rw [hcnew, hnew]
      apply Buffer.Ints.new
    . rw [hchannels c hcnew]
      apply hs.ints

theorem Sized.send (hs : Sized s) (c : ChannelId) (view : List Byte) (heap : Int → Byte)
    : Sized (s.send c view heap) := by
  have hinv : ReadInv (s.send c view heap) := hs.reads.congr (sameReads_send s c view heap)
  rw [send_eq] at hinv ⊢
  split
  . rename_i hflag
    rw [if_pos hflag] at hinv
    apply hs.transfer hinv rfl (fun _ => rfl) (fun r hr _ => Or.inl hr) hs.ints
  . rename_i hflag
    rw [if_neg hflag] at hinv
    refine hs.transfer hinv rfl ?_ (fun r hr _ => Or.inl hr) ?_
    . intro c'
      by_cases hc : c' = c
      . rw [hc, sent_channels_self]
      . rw [sent_channels_of_ne s view heap hc]
    . intro c'
      by_cases hc : c' = c
      . rw [hc, sent_channels_self]
        apply (hs.ints c).input
      . rw [sent_channels_of_ne s view heap hc]
        apply hs.ints

-- no other `READ` receives into the buffer of a channel
theorem ReadInv.other (hinv : ReadInv s) (hr : s.ring[e.index]? = some r)
    (htype : r.eventType = .read) {r' : UringRequest} (hr' : r' ∈ s.ring.eraseIdx e.index)
    (htype' : r'.eventType = .read) : r'.channel ≠ r.channel := by
  rcases hinv.single hr htype with ⟨hfd, hreads, _⟩
  have hfd' := (hinv.ring (List.mem_of_mem_eraseIdx hr') htype').1
  intro hc
  rw [hc] at hfd'
  have hsocket : r'.clientSocket = r.clientSocket := Inv.inj hinv hfd' hfd
  have hnone := (Nat.add_eq_zero_iff.mp hreads).2
  have hfalse := List.countP_eq_zero.mp hnone r' hr'
  simp [htype', hsocket] at hfalse

-- a result that is handled as it should be and brings no bytes leaves the receive buffer alone
theorem Sized.readBuf_of_nonpos (hs : Sized s) (hr : s.ring[e.index]? = some r)
    (htype : r.eventType = .read) (hrep : s.Reported r e) (hsound : s.SoundRequest r e)
    (h : s.complete e = .ok s') (hneg : e.res ≤ 0)
    : (s'.channels r.channel).readBuf = (s.channels r.channel).readBuf := by
  have hwindow := hs.window r (List.mem_of_getElem? hr) htype
  have hvalid := hs.valid r.channel (Inv.fresh hs.reads _ _ hwindow.channel)
  have hhandled := ((hs.read_iff hr htype hrep h).mpr hsound)
  unfold HandledRequest at hhandled
  simp only [htype] at hhandled
  rcases (hhandled.2 hneg) with ⟨hunmoved, hclosed⟩
  rcases (complete_read_effect hs.reads hr htype h).2 with
    ⟨_, _, _, hbuf⟩ | ⟨_, _, _, hbuf⟩ | ⟨_, _, hopen, _⟩
  . rw [hbuf, received_of_nonpos hneg, store_nil]
  . have hread := hunmoved.readBuf
    rw [hbuf] at hread ⊢
    apply handed_of_zero s r hvalid ((handed_unmoved_iff hvalid hrep hneg).mp hread)
  . exact absurd hclosed hopen

theorem Sized.complete (hs : Sized s) (hr : s.ring[e.index]? = some r) (hrep : s.Reported r e)
    (hsound : s.SoundRequest r e) (h : s.complete e = .ok s') : Sized s' := by
  have hinv : ReadInv s' := (advances_complete h hs.reads).1
  rcases complete_ring hr h with ⟨hring, hnext⟩
  cases htype : r.eventType with
  | read =>
    have hother := (complete_read_effect hs.reads hr htype h).1
    have hwindow := hs.window r (List.mem_of_getElem? hr) htype
    have hlt : r.channel < s.next := Inv.fresh hs.reads _ _ hwindow.channel
    refine ⟨hinv, ?_, ?_, ?_⟩
    . intro c hc
      rw [hnext] at hc
      by_cases hself : c = r.channel
      . subst hself
        by_cases hpos : 0 < e.res
        . exact (hs.extended hr htype hrep h hpos).valid'
        . rw [hs.readBuf_of_nonpos hr htype hrep hsound h (Int.not_lt.mp hpos)]
          apply hs.valid r.channel hlt
      . rw [hother c hself]
        apply hs.valid c hc
    . intro r' hr' htype'
      have hold := hr'
      rw [hring] at hold
      have hwindow' := hs.window r' (List.mem_of_mem_eraseIdx hold) htype'
      apply hwindow'.transfer hinv hr'
      apply hother r'.channel (hs.reads.other hr htype hold htype')
    . intro c
      rw [sendBuf_of_read hr htype h]
      apply hs.ints c
  | write =>
    rcases complete_write_effect hs.reads hr htype h with ⟨c, _, hread, hsend, hother, _⟩
    refine hs.transfer hinv hnext hread ?_ ?_
    . intro r' hr' _
      rw [hring] at hr'
      exact Or.inl (List.mem_of_mem_eraseIdx hr')
    . intro c'
      by_cases hc : c' = c
      . rw [hc, hsend]
        apply (hs.ints c).eraseData
      . rw [hother c' hc]
        apply hs.ints

theorem Sized.step {e : Event} (hs : Sized s) (hsound : s.Sound e) (h : CarriedStep s e s')
    : Sized s' := by
  rcases h with ⟨⟨henabled, hstep⟩, hcarries⟩
  cases e with
  | addNewFd fd heap => apply hs.addNewFd hstep
  | send c view heap =>
    cases hstep
    apply hs.send
  | beginRecv =>
    have hinv : ReadInv s' := (advances_beginRecv hstep hs.reads).1
    rcases beginRecv_cases hstep with ⟨rs, _, hrs, rfl⟩
    refine hs.transfer hinv rfl (fun _ => rfl) ?_ hs.ints
    intro r hr _
    rcases List.mem_append.mp hr with hold | hnew
    . exact Or.inl hold
    . exact Or.inr (hrs r hnew)
  | beginSend =>
    have hinv : ReadInv s' := hs.reads.congr (sameReads_beginSend hstep)
    rcases beginSend_cases hstep with ⟨rs, _, hrs, rfl⟩
    refine hs.transfer hinv rfl (fun _ => rfl) ?_ hs.ints
    intro r hr htype
    rcases List.mem_append.mp hr with hold | hnew
    . exact Or.inl hold
    . rw [hrs r hnew] at htype
      cases htype
  | complete e =>
    have hindex : e.index < s.ring.length := henabled
    have hr := List.getElem?_eq_getElem hindex
    apply hs.complete hr (hcarries _ hr) (hsound _ hr) hstep

theorem sized_init (queueSize : Nat) : Sized (init queueSize) where
  reads := inv_init queueSize
  valid c hc := absurd hc (Nat.not_lt_zero c)
  window r hr := by cases hr
  ints c := Buffer.Ints.new 0 _

theorem Sized.handles_iff {e : Event} (hs : Sized s) (h : CarriedStep s e s')
    : s.Handles e ↔ s.Sound e := by
  rcases h with ⟨⟨henabled, hstep⟩, hcarries⟩
  cases e with
  | complete e =>
    have hiff (r : UringRequest) (hr : s.ring[e.index]? = some r)
        : s.HandledRequest r e s' ↔ s.SoundRequest r e := by
      cases htype : r.eventType with
      | read => apply hs.read_iff hr htype (hcarries r hr) hstep
      | write => apply hs.write_iff hr htype (hcarries r hr) hstep
    constructor
    . intro hhandles r hr
      exact (hiff r hr).mp (hhandles r s' hr hstep)
    . intro hsound r s'' hr hstep'
      have heq : s'' = s' := Except.ok.inj (hstep'.symm.trans hstep)
      rw [heq]
      exact (hiff r hr).mpr (hsound r hr)
  | _ => exact Iff.rfl

/--
In a run every completion is handled as it should be exactly if all results are ones that the
handler is right about.
-/
theorem handled_iff {queueSize : Nat} {es : List Event}
    : Run CarriedStep Handles (init queueSize) es s
        ↔
      Run CarriedStep Sound (init queueSize) es s := by
  apply Run.meets_congr (sized_init queueSize)
  . exact fun s e s' hs hsound hstep => hs.step hsound hstep
  . exact fun s e s' hs hstep => hs.handles_iff hstep

instance (s : Uring) (r : UringRequest) (e : Completion) : Decidable (s.Reported r e) :=
  decidable_of_iff
    ((-2 ^ 31 ≤ e.res ∧ e.res < 2 ^ 31) ∧ (0 < e.res → e.res ≤ r.len) ∧
      (r.eventType = .read → 0 < e.res →
        e.consumed < 2 ^ 31 ∧
          (s.handed r e).readIndex + sizeToInt e.consumed ≤ (s.handed r e).writeIndex))
    ⟨fun h => ⟨h.1, h.2.1, h.2.2⟩, fun h => ⟨h.int, h.le, h.consumed⟩⟩

instance (s : Uring) (e : Event) : Decidable (s.Carries e) :=
  match e with
  | .addNewFd _ _ => isTrue trivial
  | .send _ _ _ => isTrue trivial
  | .beginRecv => isTrue trivial
  | .beginSend => isTrue trivial
  | .complete e =>
    decidable_of_iff (∀ r ∈ s.ring[e.index]?, s.Reported r e) Iff.rfl

def carriedNext? (s : Uring) (e : Event) : Option Uring :=
  if s.Carries e then s.heldNext? e else none

theorem carriedStep_of_carriedNext? (s : Uring) (e : Event) (s' : Uring)
    (h : s.carriedNext? e = some s') : CarriedStep s e s' := by
  unfold carriedNext? at h
  simp only [Option.ite_none_right_eq_some] at h
  exact ⟨heldStep_of_heldNext? s e s' h.2, h.1⟩

-- 200 bytes arrive, and the next `READ` ends with `ECONNRESET` while `errno` is `EAGAIN`
def arriving : List Event :=
  [.addNewFd 5 zeroHeap, .beginRecv, .complete ⟨0, 200, 0, fun _ => 97, 0⟩, .beginRecv]

def reset : Completion := ⟨0, -104, 11, fun _ => 0, 0⟩

-- the channel is not closed and the last 104 of the bytes are forgotten
theorem not_handled_reset
    : ∃ s s',
        Run CarriedStep Run.Always (init 8) arriving s ∧ CarriedStep s (.complete reset) s' ∧
        (s'.channels 0).readBuf.writeIndex = 96 ∧ ¬s.Handles (.complete reset) := by
  have hring : (Run.execute carriedNext? Run.Always (init 8) arriving).map Uring.ring
      = some [⟨.read, 5, 0, ⟨0, .readBuf, 0, 200⟩, 823⟩] := by decide +kernel
  have hlast : (Run.execute carriedNext? Run.Always (init 8) (arriving ++ [.complete reset])).map
      (fun s => ((s.channels 0).readBuf.writeIndex, decide (s.Closed 0))) = some (96, false) := by
    decide +kernel
  rcases Option.map_eq_some_iff.mp hlast with ⟨s', hs', heq⟩
  simp only [Prod.mk.injEq, decide_eq_false_iff_not] at heq
  rcases Run.execute_concat hs' with ⟨s, hs, _, hnext⟩
  have hstep := carriedStep_of_carriedNext? s _ s' hnext
  rw [hs] at hring
  refine ⟨s, s', Run.of_execute carriedStep_of_carriedNext? hs, hstep, heq.1, ?_⟩
  intro hhandles
  have hr : s.ring[reset.index]? = some _ := congrArg (fun ring => ring[0]?) (Option.some.inj hring)
  have hhandled := hhandles _ s' hr hstep.1.2
  exact heq.2 (hhandled.2 (by decide)).2

-- a failed `WRITE` moves the read index below 0, and the channel stays open
example
    : (Run.execute carriedNext? Run.Always (init 8)
        [.addNewFd 5 zeroHeap, .send 0 [1] zeroHeap, .beginSend, completes 0 (-32)]).map
        (fun s => ((s.channels 0).sendBuf.readIndex, decide (s.Closed 0)))
        =
      some (-32, false) := by
  decide +kernel

end Uring
end Fish
