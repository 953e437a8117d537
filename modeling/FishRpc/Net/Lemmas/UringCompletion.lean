import FishRpc.Net.Lemmas.UringInv

/-!
This module contains the proof that the completions of requests keep the invariant of the loop and
that none of their assertions fails.
-/

namespace Fish
namespace Uring

/-! ### `READ` completions -/

theorem Inv.resume {s : Uring} (h : Inv s) {fd : Int} {c : ChannelId}
    (hfd : s.connections fd = some c) (hreads : s.reads fd = 0)
    (hopen : (s.channels c).closeFlag = false) (consumed : Nat)
    : ∃ s', s.resume c consumed = .ok s' ∧ Inv s' := by
  unfold Uring.resume
  simp only
  split
  . exact (h.useHandle c).close hfd hreads
  . refine ⟨_, rfl, ?_⟩
    have hmodify := (h.useHandle c).modify c (fun ch => ch.eraseRead consumed)
      (sameFlags_eraseRead _ _)
    rw [hmodify.fd fd c hfd]
    apply hmodify.addReadRequest hfd hreads
    rw [modify_channels_self]
    exact hopen

theorem Inv.without_read {s : Uring} (h : Inv s) {i : Nat} {r : UringRequest}
    (hr : s.ring[i]? = some r) (htype : r.eventType = .read)
    : Inv (s.without i) ∧
      (s.without i).reads r.clientSocket = 0 ∧
      (s.channels r.channel).closeFlag = false := by
  have hmem : r ∈ s.ring := List.mem_of_getElem? hr
  have hfd := (h.ring r hmem).1
  have hone := h.oneRead _ _ hfd
  have hreads := reads_without hr
  have hwrites := writes_without hr
  have hhere := hreads r.clientSocket
  rw [if_pos ⟨htype, rfl⟩] at hhere
  refine ⟨?_, by omega, ?_⟩
  . refine h.transfer rfl rfl rfl rfl (fun _ => rfl) h.recvQue h.sendQue ?_ ?_ ?_
    . intro r' hr'
      apply h.ring r' (List.mem_of_mem_eraseIdx hr')
    . intro fd c hc
      have := h.oneRead fd c hc
      have hle := hreads fd
      refine ⟨by omega, ?_⟩
      intro hclose
      have := h.closing fd c hc hclose
      omega
    . intro fd c hc
      have hwrite := hwrites fd
      rw [if_neg (by simp [htype])] at hwrite
      rw [← Nat.add_zero ((s.without i).writes fd)]
      rw [← hwrite]
      apply h.sendFlag fd c hc
  . cases hclose : (s.channels r.channel).closeFlag with
    | false => rfl
    | true =>
      have := h.closing _ _ hfd hclose
      omega

theorem map_freeSlot {result : Except Failure Uring}
    (h : ∃ s', result = .ok s' ∧ Inv s') : ∃ s', result.map Uring.freeSlot = .ok s' ∧ Inv s' := by
  rcases h with ⟨s', hresult, hinv⟩
  rw [hresult]
  exact ⟨_, rfl, hinv.freeSlot⟩

theorem Inv.readCompletion {s : Uring} (h : Inv s) {r : UringRequest} (e : Completion)
    (hr : s.ring[e.index]? = some r) (htype : r.eventType = .read)
    : ∃ s', (s.without e.index).readCompletion r e = .ok s' ∧ Inv s' := by
  have hfd := (h.ring r (List.mem_of_getElem? hr)).1
  rcases h.without_read hr htype with ⟨hwithout, hreads, hopen⟩
  let store := fun ch : Channel => ch.store r.ptr ((List.range e.res.toNat).map e.data)
  have hstore := hwithout.modify r.channel store (sameFlags_store _ _ _)
  have hfind : ((s.without e.index).modify r.channel store).connections r.clientSocket
      = some r.channel := hfd
  unfold Uring.readCompletion
  simp only [store] at hstore hfind ⊢
  simp only [hfind]
  split
  . apply map_freeSlot (hstore.close hfd hreads)
  . have halready := hstore.modify r.channel (fun ch => ch.alreadyRead (intToSize e.res))
      (sameFlags_alreadyRead _ _)
    apply map_freeSlot
    apply halready.resume hfd hreads
    simp only [modify_channels_self]
    rw [(sameFlags_alreadyRead _ _).2.2]
    rw [(sameFlags_store _ _ _).2.2]
    exact hopen

/-! ### `WRITE` completions -/

theorem Inv.requeue {s s' : Uring} (h : Inv s) {i : Nat} {r : UringRequest}
    (hr : s.ring[i]? = some r) (htype : r.eventType = .write)
    (hsame : SameRequests (s.without i) s') {buf : Pointer} (size : Nat)
    (hbuf : buf.channel = r.channel)
    : Inv (s'.addWriteRequest r.clientSocket buf size) := by
  have hfd := (h.ring r (List.mem_of_getElem? hr)).1
  have hreads (fd : Int) : (s'.addWriteRequest r.clientSocket buf size).reads fd = s.reads fd := by
    have hwithout := reads_without hr fd
    rw [if_neg (by simp [htype])] at hwithout
    rw [hwithout]
    apply hsame.reads fd
  have hwrites (fd : Int)
      : (s'.addWriteRequest r.clientSocket buf size).writes fd = s.writes fd := by
    have hwithout := writes_without hr fd
    have hsame := hsame.writes fd
    unfold writes at hsame hwithout ⊢
    unfold addWriteRequest
    simp only [htype, true_and] at hwithout
    simp only [List.countP_append, List.countP_singleton, decide_eq_true_eq]
    omega
  have hqueues := h.queues_without hsame
  refine h.transfer hsame.connections hsame.openFds hsame.next hsame.removed
    (fun c => (hsame.flags c).1) hqueues.1 ?_ hqueues.2.2 ?_ ?_
  . intro q hq
    rcases List.mem_append.mp hq with hold | hnew
    . apply hqueues.2.1 q hold
    . cases List.mem_singleton.mp hnew
      rw [hbuf]
      exact hfd
  . intro fd c hc
    rw [hreads]
    refine ⟨h.oneRead fd c hc, ?_⟩
    intro hclose
    apply h.closing fd c hc
    rw [← hclose]
    exact (hsame.flags c).2.2.symm
  . intro fd c hc
    rw [hwrites]
    rw [← h.sendFlag fd c hc]
    exact (hsame.flags c).2.1

theorem Inv.reduseSend {s s' : Uring} (h : Inv s) {i : Nat} {r : UringRequest}
    (hr : s.ring[i]? = some r) (htype : r.eventType = .write)
    (hsame : SameRequests (s.without i) s')
    : ∃ s'', s'.reduseSend r.channel = .ok s'' ∧ Inv s'' := by
  have hfd := (h.ring r (List.mem_of_getElem? hr)).1
  have hflag : (s'.channels r.channel).sendFlag = s.writes r.clientSocket := by
    rw [← h.sendFlag _ _ hfd]
    exact (hsame.flags r.channel).2.1
  have hhere := writes_without hr r.clientSocket
  rw [if_pos ⟨htype, rfl⟩] at hhere
  have hreads (fd : Int) : s'.reads fd = s.reads fd := by
    have hwithout := reads_without hr fd
    rw [if_neg (by simp [htype])] at hwithout
    rw [hwithout]
    apply hsame.reads fd
  let dec := fun ch : Channel => { ch with sendFlag := ch.sendFlag - 1 }
  have hdec (c : ChannelId)
      : let ch := (s'.modify r.channel dec).channels c
        ch.fd = (s.channels c).fd ∧ ch.closeFlag = (s.channels c).closeFlag ∧
        ch.sendFlag = (s.channels c).sendFlag - if c = r.channel then 1 else 0 := by
    have hflags : SameFlags (s.channels c) (s'.channels c) := hsame.flags c
    by_cases hc : c = r.channel
    . subst hc
      simp [dec, hflags.1, hflags.2.1, hflags.2.2]
    . simp [modify_channels_of_ne, hc, hflags.1, hflags.2.1, hflags.2.2]
  have hinv : Inv (s'.modify r.channel dec) := by
    have hqueues := h.queues_without hsame
    refine h.transfer hsame.connections hsame.openFds hsame.next hsame.removed
      (fun c => (hdec c).1) hqueues.1 hqueues.2.1 hqueues.2.2 ?_ ?_
    . intro fd c hc
      rw [(hdec c).2.1]
      show s'.reads fd ≤ 1 ∧ (_ → s'.reads fd = 0)
      rw [hreads]
      exact ⟨h.oneRead fd c hc, h.closing fd c hc⟩
    . intro fd c hc
      have hold := h.sendFlag fd c hc
      have hwrites := writes_without hr fd
      have hnew : (s'.modify r.channel dec).writes fd = (s.without i).writes fd := hsame.writes fd
      rw [(hdec c).2.2]
      by_cases heq : c = r.channel
      . subst heq
        have hsocket := h.inj hc hfd
        subst hsocket
        rw [if_pos rfl]
        omega
      . have hsocket : r.clientSocket ≠ fd := by
          intro hsocket
          rw [hsocket, hc] at hfd
          apply heq (Option.some.inj hfd)
        rw [if_neg heq]
        rw [if_neg (by simp [hsocket])] at hwrites
        omega
  unfold Uring.reduseSend
  rw [if_pos (by omega)]
  simp only
  split
  . rename_i hlast
    have hconnected : (s'.modify r.channel dec).connections r.clientSocket = some r.channel := by
      show s'.connections r.clientSocket = some r.channel
      rw [hsame.connections]
      exact hfd
    apply hinv.close hconnected (hinv.closing _ _ hconnected hlast.2)
  . exact ⟨_, rfl, hinv⟩

def written (s : Uring) (r : UringRequest) (e : Completion) : Uring :=
  (s.accept r e).modify r.channel fun ch => ch.eraseWrite (intToSize e.res)

theorem sameRequests_written (s : Uring) (r : UringRequest) (e : Completion)
    : SameRequests s (s.written r e) :=
  (sameRequests_accept s r e).trans (.modify _ _ _ (sameFlags_eraseWrite _ _))

theorem writeCompletion_eq {s : Uring} {r : UringRequest} (e : Completion)
    (hfd : s.connections r.clientSocket = some r.channel)
    : s.writeCompletion r e
        =
      let ch := (s.written r e).channels r.channel
      let buf := ⟨r.channel, .readBuf, ch.readBuf.storage, ch.dispWriteBuf.offset⟩
      if ch.dispWriteBuf.size > 0 then
        .ok ((s.written r e).addWriteRequest ch.fd buf ch.dispWriteBuf.size)
      else
        ((s.written r e).reduseSend r.channel).map Uring.freeSlot := by
  have haccept : (s.accept r e).connections r.clientSocket = some r.channel := hfd
  unfold Uring.writeCompletion
  simp only [haccept]
  rfl

theorem Inv.writeCompletion {s : Uring} (h : Inv s) {r : UringRequest} (e : Completion)
    (hr : s.ring[e.index]? = some r) (htype : r.eventType = .write)
    : ∃ s', (s.without e.index).writeCompletion r e = .ok s' ∧ Inv s' := by
  have hfd := (h.ring r (List.mem_of_getElem? hr)).1
  have hsame := sameRequests_written (s.without e.index) r e
  have hsocket : (((s.without e.index).written r e).channels r.channel).fd = r.clientSocket :=
    (hsame.flags r.channel).1.trans (h.fd _ _ hfd)
  have hwithout : (s.without e.index).connections r.clientSocket = some r.channel := hfd
  rw [writeCompletion_eq e hwithout]
  simp only
  rw [hsocket]
  split
  . exact ⟨_, rfl, h.requeue hr htype hsame _ rfl⟩
  . apply map_freeSlot (h.reduseSend hr htype hsame)

end Uring
end Fish
