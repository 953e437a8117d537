import FishRpc.Net.Lemmas.UringCompletion

/-!
This module contains the proof that every step keeps the invariant of the loop and that none of its
assertions fails.
-/

namespace Fish
namespace Uring

/-! ### Submissions -/

def submitted (s : Uring) (r : UringRequest) : Uring :=
  { s with ring := s.ring ++ [r] }

-- `temp` has been taken from the queue and not yet been submitted
def pendingRecv (temp : List Int) (s : Uring) : Uring :=
  { s with recvQue := temp ++ s.recvQue }

def pendingSend (temp : List SendRequest) (s : Uring) : Uring :=
  { s with sendQue := temp ++ s.sendQue }

theorem reads_submitted (s : Uring) (r : UringRequest) (fd : Int)
    : (s.submitted r).reads fd
        =
      s.reads fd + if r.eventType = .read ∧ r.clientSocket = fd then 1 else 0 := by
  unfold reads submitted
  simp only [List.countP_append, List.countP_singleton, decide_eq_true_eq]
  omega

theorem writes_submitted (s : Uring) (r : UringRequest) (fd : Int)
    : (s.submitted r).writes fd
        =
      s.writes fd + if r.eventType = .write ∧ r.clientSocket = fd then 1 else 0 := by
  unfold writes submitted
  simp only [List.countP_append, List.countP_singleton, decide_eq_true_eq]
  omega

theorem reads_pendingRecv_cons (s : Uring) (fd : Int) (temp : List Int) (fd' : Int)
    : (pendingRecv (fd :: temp) s).reads fd'
        =
      (pendingRecv temp s).reads fd' + if fd = fd' then 1 else 0 := by
  unfold reads pendingRecv
  simp only [List.cons_append, List.count_cons, beq_iff_eq]
  omega

theorem writes_pendingSend_cons (s : Uring) (q : SendRequest) (temp : List SendRequest) (fd : Int)
    : (pendingSend (q :: temp) s).writes fd
        =
      (pendingSend temp s).writes fd + if q.fd = fd then 1 else 0 := by
  unfold writes pendingSend
  simp only [List.cons_append, List.countP_cons, decide_eq_true_eq]
  omega

theorem Inv.submitRecv {fd : Int} {temp : List Int} {s : Uring}
    (h : Inv (pendingRecv (fd :: temp) s))
    : ∃ s', s.submitRecv fd = .ok s' ∧ Inv (pendingRecv temp s') := by
  have hqueued : ∃ c, s.connections fd = some c := h.recvQue fd (by simp [pendingRecv])
  rcases hqueued with ⟨c, hc⟩
  have hfd : (s.channels c).fd = fd := h.fd fd c hc
  let buf := (s.channels c).dispWriteBuf
  let r : UringRequest :=
    ⟨.read, fd, c, ⟨c, .readBuf, (s.channels c).readBuf.storage, buf.offset⟩, buf.size⟩
  have hsubmit : s.submitRecv fd = .ok (s.submitted r) := by
    unfold Uring.submitRecv
    simp only [hc, hfd, if_true]
    rfl
  have hreads (fd' : Int)
      : (pendingRecv temp (s.submitted r)).reads fd' = (pendingRecv (fd :: temp) s).reads fd' := by
    rw [reads_pendingRecv_cons]
    refine (reads_submitted (pendingRecv temp s) r fd').trans ?_
    simp [r]
  have hwrites (fd' : Int)
      : (pendingRecv temp (s.submitted r)).writes fd'
          =
        (pendingRecv (fd :: temp) s).writes fd' := by
    refine (writes_submitted (pendingRecv temp s) r fd').trans ?_
    simp [r]
    rfl
  refine ⟨_, hsubmit, h.transfer rfl rfl rfl rfl (fun _ => rfl) ?_ h.sendQue ?_ ?_ ?_⟩
  . intro fd' hfd'
    apply h.recvQue fd' (List.mem_cons_of_mem fd hfd')
  . exact List.forall_mem_append.mpr ⟨h.ring, List.forall_mem_singleton.mpr ⟨hc, rfl⟩⟩
  . intro fd' c' hc'
    rw [hreads]
    exact ⟨h.oneRead fd' c' hc', h.closing fd' c' hc'⟩
  . intro fd' c' hc'
    rw [hwrites]
    apply h.sendFlag fd' c' hc'

theorem Inv.submitSend {q : SendRequest} {temp : List SendRequest} {s : Uring}
    (h : Inv (pendingSend (q :: temp) s))
    : ∃ s', s.submitSend q = .ok s' ∧ Inv (pendingSend temp s') := by
  have hc : s.connections q.fd = some q.buf.channel := h.sendQue q (by simp [pendingSend])
  let r : UringRequest := ⟨.write, q.fd, q.buf.channel, q.buf, q.size⟩
  have hsubmit : s.submitSend q = .ok (s.submitted r) := by
    unfold Uring.submitSend
    simp only [hc]
    rfl
  have hreads (fd : Int)
      : (pendingSend temp (s.submitted r)).reads fd = (pendingSend (q :: temp) s).reads fd := by
    refine (reads_submitted (pendingSend temp s) r fd).trans ?_
    simp [r]
    rfl
  have hwrites (fd : Int)
      : (pendingSend temp (s.submitted r)).writes fd = (pendingSend (q :: temp) s).writes fd := by
    rw [writes_pendingSend_cons]
    refine (writes_submitted (pendingSend temp s) r fd).trans ?_
    simp [r]
  refine ⟨_, hsubmit, h.transfer rfl rfl rfl rfl (fun _ => rfl) h.recvQue ?_ ?_ ?_ ?_⟩
  . intro q' hq'
    apply h.sendQue q' (List.mem_cons_of_mem q hq')
  . exact List.forall_mem_append.mpr ⟨h.ring, List.forall_mem_singleton.mpr ⟨hc, rfl⟩⟩
  . intro fd c hc'
    rw [hreads]
    exact ⟨h.oneRead fd c hc', h.closing fd c hc'⟩
  . intro fd c hc'
    rw [hwrites]
    apply h.sendFlag fd c hc'

theorem Inv.foldlM_submitRecv {temp : List Int} {s : Uring} (h : Inv (pendingRecv temp s))
    : ∃ s', temp.foldlM Uring.submitRecv s = .ok s' ∧ Inv s' := by
  induction temp generalizing s with
  | nil => exact ⟨s, rfl, h⟩
  | cons fd temp ih =>
    rcases h.submitRecv with ⟨s₁, hs₁, hinv₁⟩
    rcases ih hinv₁ with ⟨s', hs', hinv⟩
    refine ⟨s', ?_, hinv⟩
    rw [List.foldlM_cons]
    rw [hs₁]
    exact hs'

theorem Inv.foldlM_submitSend {temp : List SendRequest} {s : Uring} (h : Inv (pendingSend temp s))
    : ∃ s', temp.foldlM Uring.submitSend s = .ok s' ∧ Inv s' := by
  induction temp generalizing s with
  | nil => exact ⟨s, rfl, h⟩
  | cons q temp ih =>
    rcases h.submitSend with ⟨s₁, hs₁, hinv₁⟩
    rcases ih hinv₁ with ⟨s', hs', hinv⟩
    refine ⟨s', ?_, hinv⟩
    rw [List.foldlM_cons]
    rw [hs₁]
    exact hs'

theorem sameRequests_takeRecv (s : Uring)
    : SameRequests s (pendingRecv s.takeRecv.1 s.takeRecv.2) := by
  unfold takeRecv pendingRecv
  simp only
  split
  . exact ⟨rfl, rfl, rfl, rfl, List.append_nil _, rfl, rfl, fun _ => ⟨rfl, rfl, rfl⟩⟩
  . exact ⟨rfl, rfl, rfl, rfl, List.take_append_drop _ _, rfl, rfl, fun _ => ⟨rfl, rfl, rfl⟩⟩

theorem sameRequests_takeSend (s : Uring)
    : SameRequests s (pendingSend s.takeSend.1 s.takeSend.2) := by
  unfold takeSend pendingSend
  simp only
  split
  . exact ⟨rfl, rfl, rfl, rfl, rfl, List.append_nil _, rfl, fun _ => ⟨rfl, rfl, rfl⟩⟩
  . exact ⟨rfl, rfl, rfl, rfl, rfl, List.take_append_drop _ _, rfl, fun _ => ⟨rfl, rfl, rfl⟩⟩

/-! ### Events -/

-- `Channel::send` while the channel is not about to be closed
def sent (s : Uring) (c : ChannelId) (view : List Byte) (heap : Int → Byte) : Uring :=
  let input := (s.channels c).sendBuf.input view heap
  let buf := ⟨c, .sendBuf, input.storage, input.disRead.offset⟩
  let filled := { s with given := Function.update s.given c (s.given c ++ view) }.modify c
    fun ch => { ch with sendBuf := input }
  (filled.addWriteRequest (s.channels c).fd buf input.disRead.size).modify c
    fun ch => { ch with sendFlag := ch.sendFlag + 1 }

theorem send_eq (s : Uring) (c : ChannelId) (view : List Byte) (heap : Int → Byte)
    : s.send c view heap
        =
      if (s.channels c).closeFlag then
        { s with given := Function.update s.given c (s.given c ++ view) }
      else
        s.sent c view heap := by
  unfold Uring.send sent
  simp only [modify_channels_self]
  split
  . rfl
  . rfl

theorem Inv.send {s : Uring} (h : Inv s) {c : ChannelId}
    (hc : s.connections (s.channels c).fd = some c) (view : List Byte) (heap : Int → Byte)
    : Inv (s.send c view heap) := by
  rw [send_eq]
  split
  . exact h.congr ⟨rfl, rfl, rfl, rfl, rfl, rfl, rfl, fun _ => ⟨rfl, rfl, rfl⟩⟩
  have hchannel (c' : ChannelId)
      : let ch := (s.sent c view heap).channels c'
        ch.fd = (s.channels c').fd ∧ ch.closeFlag = (s.channels c').closeFlag ∧
        ch.sendFlag = (s.channels c').sendFlag + if c' = c then 1 else 0 := by
    by_cases heq : c' = c
    . subst heq
      simp [sent, Uring.modify, Uring.addWriteRequest]
    . simp [sent, Uring.modify, Uring.addWriteRequest, heq]
  have hwrites (fd : Int)
      : (s.sent c view heap).writes fd
          =
        s.writes fd + if (s.channels c).fd = fd then 1 else 0 := by
    unfold writes sent Uring.addWriteRequest Uring.modify
    simp only [List.countP_append, List.countP_singleton, decide_eq_true_eq]
    omega
  refine h.transfer rfl rfl rfl rfl (fun c' => (hchannel c').1) h.recvQue ?_ h.ring ?_ ?_
  . intro q hq
    rcases List.mem_append.mp hq with hold | hnew
    . apply h.sendQue q hold
    . cases List.mem_singleton.mp hnew
      exact hc
  . intro fd c' hc'
    rw [(hchannel c').2.1]
    exact ⟨h.oneRead fd c' hc', h.closing fd c' hc'⟩
  . intro fd c' hc'
    have hflag := h.sendFlag fd c' hc'
    rw [(hchannel c').2.2]
    rw [hwrites]
    by_cases heq : c' = c
    . subst heq
      have hsocket := h.inj hc hc'
      rw [if_pos rfl, if_pos hsocket]
      omega
    . have hsocket : (s.channels c).fd ≠ fd := by
        intro hsocket
        rw [hsocket, hc'] at hc
        apply heq (Option.some.inj hc)
      rw [if_neg heq, if_neg hsocket]
      omega

theorem Inv.unused {s : Uring} (h : Inv s) {fd : Int} (hfd : s.connections fd = none)
    : s.reads fd = 0 ∧ s.writes fd = 0 := by
  have hrecv : s.recvQue.count fd = 0 := by
    rw [List.count_eq_zero]
    intro hmem
    rcases h.recvQue fd hmem with ⟨c, hc⟩
    rw [hfd] at hc
    cases hc
  have hsend : (s.sendQue.countP fun q => q.fd = fd) = 0 := by
    rw [List.countP_eq_zero]
    intro q hq heq
    have hc := h.sendQue q hq
    rw [of_decide_eq_true heq, hfd] at hc
    cases hc
  have hring (type : TaskOption)
      : (s.ring.countP fun r => r.eventType = type ∧ r.clientSocket = fd) = 0 := by
    rw [List.countP_eq_zero]
    intro r hr heq
    have hc := (h.ring r hr).1
    rw [(of_decide_eq_true heq).2, hfd] at hc
    cases hc
  unfold reads writes
  rw [hrecv, hsend, hring, hring]
  exact ⟨rfl, rfl⟩

-- `addNewFd` up to the start of the coroutine
def opened (s : Uring) (fd : Int) (heap : Int → Byte) : Uring :=
  { s with
    next := s.next + 1
    openFds := Function.update s.openFds fd true
    channels := Function.update s.channels s.next (Channel.new fd 1024 heap)
    connections := Function.update s.connections fd (some s.next) }

theorem addNewFd_eq {s : Uring} {fd : Int} (heap : Int → Byte) (hfd : s.connections fd = none)
    : s.addNewFd fd heap = .ok ((s.opened fd heap).addReadRequest fd) := by
  have hsocket : ((s.opened fd heap).channels s.next).fd = fd := by simp [opened, Channel.new]
  have hadd : s.addNewFd fd heap
      = .ok ((s.opened fd heap).addReadRequest ((s.opened fd heap).channels s.next).fd) := by
    unfold Uring.addNewFd
    simp only [hfd]
    rfl
  rw [hadd]
  rw [hsocket]

theorem Inv.opened {s : Uring} (h : Inv s) {fd : Int} (hfd : s.connections fd = none)
    (heap : Int → Byte) : Inv (s.opened fd heap) := by
  have hunused := h.unused hfd
  have hkeep {fd' : Int} {c : ChannelId} (hc : s.connections fd' = some c)
      : (s.opened fd heap).connections fd' = some c := by
    have hne : fd' ≠ fd := by
      intro heq
      rw [heq, hfd] at hc
      cases hc
    simpa [Uring.opened, hne] using hc
  have hcases {fd' : Int} {c : ChannelId} (hc : (s.opened fd heap).connections fd' = some c)
      : (fd' = fd ∧ c = s.next) ∨ (s.connections fd' = some c ∧ fd' ≠ fd ∧ c ≠ s.next) := by
    by_cases heq : fd' = fd
    . subst heq
      left
      simpa [Uring.opened, eq_comm] using hc
    . have hold : s.connections fd' = some c := by simpa [Uring.opened, heq] using hc
      exact Or.inr ⟨hold, heq, Nat.ne_of_lt (h.fresh fd' c hold)⟩
  have hnew : (s.opened fd heap).channels s.next = Channel.new fd 1024 heap := by
    simp [Uring.opened]
  have hold {c : ChannelId} (hc : c ≠ s.next) : (s.opened fd heap).channels c = s.channels c := by
    simp [Uring.opened, hc]
  exact
    { recvQue := by
        intro fd' hmem
        rcases h.recvQue fd' hmem with ⟨c, hc⟩
        exact ⟨c, hkeep hc⟩
      sendQue := fun q hq => hkeep (h.sendQue q hq)
      ring := fun r hr => ⟨hkeep (h.ring r hr).1, (h.ring r hr).2⟩
      fd := by
        intro fd' c hc
        rcases hcases hc with ⟨rfl, rfl⟩ | ⟨hc, _, hne⟩
        . rw [hnew]
          rfl
        . rw [hold hne]
          apply h.fd fd' c hc
      oneRead := by
        intro fd' c hc
        show s.reads fd' ≤ 1
        rcases hcases hc with ⟨rfl, rfl⟩ | ⟨hc, _, _⟩
        . omega
        . apply h.oneRead fd' c hc
      closing := by
        intro fd' c hc hclose
        show s.reads fd' = 0
        rcases hcases hc with ⟨rfl, rfl⟩ | ⟨hc, _, hne⟩
        . apply hunused.1
        . rw [hold hne] at hclose
          apply h.closing fd' c hc hclose
      sendFlag := by
        intro fd' c hc
        show _ = (s.writes fd' : Int)
        rcases hcases hc with ⟨rfl, rfl⟩ | ⟨hc, _, hne⟩
        . rw [hnew, hunused.2]
          rfl
        . rw [hold hne]
          apply h.sendFlag fd' c hc
      isOpen := by
        intro fd' c hc
        rcases hcases hc with ⟨rfl, _⟩ | ⟨hc, hne, _⟩
        . simp [Uring.opened]
        . simpa [Uring.opened, hne] using h.isOpen fd' c hc
      fresh := by
        intro fd' c hc
        show c < s.next + 1
        rcases hcases hc with ⟨_, rfl⟩ | ⟨hc, _, _⟩
        . apply Nat.lt_succ_self _
        . apply Nat.lt_succ_of_lt (h.fresh fd' c hc)
      removedFresh := by
        intro x hx
        have hx := h.removedFresh x hx
        refine ⟨Nat.lt_succ_of_lt hx.1, ?_⟩
        intro fd' hc
        rcases hcases hc with ⟨_, heq⟩ | ⟨hc, _, _⟩
        . apply Nat.ne_of_lt hx.1 heq
        . apply hx.2 fd' hc
      removedOnce := h.removedOnce
      removedIdle := h.removedIdle }

theorem Inv.addNewFd {s : Uring} (h : Inv s) {fd : Int} (hopen : s.openFds fd = false)
    (heap : Int → Byte) : ∃ s', s.addNewFd fd heap = .ok s' ∧ Inv s' := by
  have hfd : s.connections fd = none := by
    cases hc : s.connections fd with
    | none => rfl
    | some c => exact absurd (hopen.symm.trans (h.isOpen fd c hc)) (by decide)
  refine ⟨_, addNewFd_eq heap hfd, ?_⟩
  apply (h.opened hfd heap).addReadRequest
  . simp [Uring.opened]
    rfl
  . exact (h.unused hfd).1
  . simp [Uring.opened, Channel.new]

theorem Inv.step {s : Uring} (h : Inv s) {e : Event} (henabled : s.Enabled e)
    : ∃ s', s.step e = .ok s' ∧ Inv s' := by
  cases e with
  | addNewFd fd heap => exact h.addNewFd henabled heap
  | send c view heap => exact ⟨_, rfl, h.send henabled view heap⟩
  | beginRecv => exact (h.congr (sameRequests_takeRecv s)).foldlM_submitRecv
  | beginSend => exact (h.congr (sameRequests_takeSend s)).foldlM_submitSend
  | complete e =>
    have hr : s.ring[e.index]? = some s.ring[e.index] := List.getElem?_eq_getElem henabled
    unfold Uring.step Uring.complete
    simp only [hr]
    split
    . apply h.readCompletion e hr (by assumption)
    . apply h.writeCompletion e hr (by assumption)

theorem Inv.of_step {s s' : Uring} (h : Inv s) {e : Event} (hstep : Step s e s') : Inv s' := by
  rcases h.step hstep.1 with ⟨s'', hs'', hinv⟩
  rw [hstep.2] at hs''
  cases hs''
  exact hinv

end Uring
end Fish
