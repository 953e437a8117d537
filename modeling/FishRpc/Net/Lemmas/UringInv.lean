import FishRpc.Net.Impl.Uring
import Mathlib.Data.List.Perm.Basic

/-!
This module contains the invariant of the io_uring loop: the queued and the submitted requests
belong to connected channels, a connection has at most one outstanding `READ` and `sendFlag_`
outstanding `WRITE` requests, and it is removed when it has none of either.
-/

namespace Fish
namespace Uring

structure Inv (s : Uring) : Prop where
  recvQue : ∀ fd ∈ s.recvQue, ∃ c, s.connections fd = some c
  sendQue : ∀ q ∈ s.sendQue, s.connections q.fd = some q.buf.channel
  ring : ∀ r ∈ s.ring, s.connections r.clientSocket = some r.channel ∧ r.ptr.channel = r.channel
  fd : ∀ fd c, s.connections fd = some c → (s.channels c).fd = fd
  oneRead : ∀ fd c, s.connections fd = some c → s.reads fd ≤ 1
  closing : ∀ fd c, s.connections fd = some c → (s.channels c).closeFlag = true → s.reads fd = 0
  sendFlag : ∀ fd c, s.connections fd = some c → (s.channels c).sendFlag = s.writes fd
  isOpen : ∀ fd c, s.connections fd = some c → s.openFds fd = true
  fresh : ∀ fd c, s.connections fd = some c → c < s.next
  removedFresh : ∀ x ∈ s.removed, x.channel < s.next ∧ ∀ fd, s.connections fd ≠ some x.channel
  removedOnce : (s.removed.map Removal.channel).Nodup
  removedIdle : ∀ x ∈ s.removed, x.outstanding = 0

theorem inv_init (queueSize : Nat) : Inv (init queueSize) := by
  constructor <;> simp [init]

theorem Inv.inj {s : Uring} (h : Inv s) {fd fd' : Int} {c : ChannelId}
    (hfd : s.connections fd = some c) (hfd' : s.connections fd' = some c) : fd = fd' :=
  (h.fd fd c hfd).symm.trans (h.fd fd' c hfd')

-- a step that neither opens nor removes a connection
theorem Inv.transfer {s s' : Uring} (h : Inv s) (hconnections : s'.connections = s.connections)
    (hopen : s'.openFds = s.openFds) (hnext : s'.next = s.next) (hremoved : s'.removed = s.removed)
    (hfd : ∀ c, (s'.channels c).fd = (s.channels c).fd)
    (hrecv : ∀ fd ∈ s'.recvQue, ∃ c, s.connections fd = some c)
    (hsend : ∀ q ∈ s'.sendQue, s.connections q.fd = some q.buf.channel)
    (hring : ∀ r ∈ s'.ring,
      s.connections r.clientSocket = some r.channel ∧ r.ptr.channel = r.channel)
    (hreads : ∀ fd c, s.connections fd = some c →
      s'.reads fd ≤ 1 ∧ ((s'.channels c).closeFlag = true → s'.reads fd = 0))
    (hwrites : ∀ fd c, s.connections fd = some c → (s'.channels c).sendFlag = s'.writes fd)
    : Inv s' where
  recvQue := by rwa [hconnections]
  sendQue := by rwa [hconnections]
  ring := by rwa [hconnections]
  fd fd c hc := by
    rw [hconnections] at hc
    rw [hfd]
    apply h.fd fd c hc
  oneRead fd c hc := by
    rw [hconnections] at hc
    exact (hreads fd c hc).1
  closing fd c hc := by
    rw [hconnections] at hc
    exact (hreads fd c hc).2
  sendFlag := by rwa [hconnections]
  isOpen := by
    rw [hconnections, hopen]
    apply h.isOpen
  fresh := by
    rw [hconnections, hnext]
    apply h.fresh
  removedFresh := by
    rw [hconnections, hnext, hremoved]
    apply h.removedFresh
  removedOnce := by
    rw [hremoved]
    apply h.removedOnce
  removedIdle := by
    rw [hremoved]
    apply h.removedIdle

def SameFlags (ch ch' : Channel) : Prop :=
  ch'.fd = ch.fd ∧ ch'.sendFlag = ch.sendFlag ∧ ch'.closeFlag = ch.closeFlag

theorem sameFlags_eraseRead (ch : Channel) (len : Nat) : SameFlags ch (ch.eraseRead len) :=
  ⟨rfl, rfl, rfl⟩

theorem sameFlags_eraseWrite (ch : Channel) (len : Nat) : SameFlags ch (ch.eraseWrite len) :=
  ⟨rfl, rfl, rfl⟩

theorem sameFlags_alreadyRead (ch : Channel) (len : Nat) : SameFlags ch (ch.alreadyRead len) :=
  ⟨rfl, rfl, rfl⟩

theorem sameFlags_store (ch : Channel) (p : Pointer) (bytes : List Byte)
    : SameFlags ch (ch.store p bytes) := by
  unfold Channel.store
  split
  . exact ⟨rfl, rfl, rfl⟩
  . exact ⟨rfl, rfl, rfl⟩

structure SameRequests (s s' : Uring) : Prop where
  connections : s'.connections = s.connections
  openFds : s'.openFds = s.openFds
  next : s'.next = s.next
  removed : s'.removed = s.removed
  recvQue : s'.recvQue = s.recvQue
  sendQue : s'.sendQue = s.sendQue
  ring : s'.ring = s.ring
  flags : ∀ c, SameFlags (s.channels c) (s'.channels c)

theorem SameRequests.trans {s s' s'' : Uring} (h : SameRequests s s') (h' : SameRequests s' s'')
    : SameRequests s s'' where
  connections := h'.connections.trans h.connections
  openFds := h'.openFds.trans h.openFds
  next := h'.next.trans h.next
  removed := h'.removed.trans h.removed
  recvQue := h'.recvQue.trans h.recvQue
  sendQue := h'.sendQue.trans h.sendQue
  ring := h'.ring.trans h.ring
  flags c :=
    ⟨(h'.flags c).1.trans (h.flags c).1, (h'.flags c).2.1.trans (h.flags c).2.1,
      (h'.flags c).2.2.trans (h.flags c).2.2⟩

theorem SameRequests.modify (s : Uring) (c : ChannelId) (f : Channel → Channel)
    (hf : SameFlags (s.channels c) (f (s.channels c))) : SameRequests s (s.modify c f) where
  connections := rfl
  openFds := rfl
  next := rfl
  removed := rfl
  recvQue := rfl
  sendQue := rfl
  ring := rfl
  flags c' := by
    by_cases hc : c' = c
    . subst hc
      simpa [Uring.modify] using hf
    . simp [Uring.modify, hc, SameFlags]

theorem SameRequests.reads {s s' : Uring} (h : SameRequests s s') (fd : Int)
    : s'.reads fd = s.reads fd := by
  unfold Uring.reads
  rw [h.recvQue, h.ring]

theorem SameRequests.writes {s s' : Uring} (h : SameRequests s s') (fd : Int)
    : s'.writes fd = s.writes fd := by
  unfold Uring.writes
  rw [h.sendQue, h.ring]

theorem Inv.congr {s s' : Uring} (h : Inv s) (hsame : SameRequests s s') : Inv s' := by
  apply h.transfer hsame.connections hsame.openFds hsame.next hsame.removed
    (fun c => (hsame.flags c).1)
  . rw [hsame.recvQue]
    apply h.recvQue
  . rw [hsame.sendQue]
    apply h.sendQue
  . rw [hsame.ring]
    apply h.ring
  . intro fd c hc
    rw [hsame.reads]
    rw [(hsame.flags c).2.2]
    exact ⟨h.oneRead fd c hc, h.closing fd c hc⟩
  . intro fd c hc
    rw [hsame.writes]
    rw [(hsame.flags c).2.1]
    apply h.sendFlag fd c hc

theorem Inv.modify {s : Uring} (h : Inv s) (c : ChannelId) (f : Channel → Channel)
    (hf : SameFlags (s.channels c) (f (s.channels c))) : Inv (s.modify c f) :=
  h.congr (.modify s c f hf)

theorem sameRequests_freeSlot (s : Uring) : SameRequests s s.freeSlot :=
  ⟨rfl, rfl, rfl, rfl, rfl, rfl, rfl, fun _ => ⟨rfl, rfl, rfl⟩⟩

theorem sameRequests_accept (s : Uring) (r : UringRequest) (e : Completion)
    : SameRequests s (s.accept r e) :=
  ⟨rfl, rfl, rfl, rfl, rfl, rfl, rfl, fun _ => ⟨rfl, rfl, rfl⟩⟩

theorem sameRequests_useHandle (s : Uring) (c : ChannelId) : SameRequests s (s.useHandle c) :=
  ⟨rfl, rfl, rfl, rfl, rfl, rfl, rfl, fun _ => ⟨rfl, rfl, rfl⟩⟩

theorem Inv.freeSlot {s : Uring} (h : Inv s) : Inv s.freeSlot :=
  h.congr (sameRequests_freeSlot s)

theorem Inv.useHandle {s : Uring} (h : Inv s) (c : ChannelId) : Inv (s.useHandle c) :=
  h.congr (sameRequests_useHandle s c)

/-! ### Requests -/

@[simp]
theorem modify_channels_self (s : Uring) (c : ChannelId) (f : Channel → Channel)
    : (s.modify c f).channels c = f (s.channels c) := by
  simp [modify]

theorem modify_channels_of_ne (s : Uring) {c c' : ChannelId} (f : Channel → Channel) (h : c' ≠ c)
    : (s.modify c f).channels c' = s.channels c' := by
  simp [modify, h]

theorem Inv.addReadRequest {s : Uring} (h : Inv s) {fd : Int} {c : ChannelId}
    (hfd : s.connections fd = some c) (hreads : s.reads fd = 0)
    (hopen : (s.channels c).closeFlag = false) : Inv (s.addReadRequest fd) := by
  have hcount (fd' : Int)
      : (s.addReadRequest fd).reads fd' = s.reads fd' + if fd = fd' then 1 else 0 := by
    unfold reads Uring.addReadRequest
    simp only [List.count_append, List.count_singleton, beq_iff_eq]
    omega
  refine h.transfer rfl rfl rfl rfl (fun _ => rfl) ?_ ?_ ?_ ?_ ?_
  . intro fd' hfd'
    rcases List.mem_append.mp hfd' with hold | hnew
    . apply h.recvQue fd' hold
    . cases List.mem_singleton.mp hnew
      exact ⟨c, hfd⟩
  . apply h.sendQue
  . apply h.ring
  . intro fd' c' hc'
    rw [hcount]
    by_cases heq : fd = fd'
    . subst heq
      rw [hfd] at hc'
      cases hc'
      rw [hreads]
      rw [if_pos rfl]
      refine ⟨Nat.le_refl 1, ?_⟩
      intro hclose
      exact absurd (hopen.symm.trans hclose) (by decide)
    . rw [if_neg heq]
      exact ⟨h.oneRead fd' c' hc', h.closing fd' c' hc'⟩
  . apply h.sendFlag

theorem countP_eraseIdx {α : Type} (p : α → Bool) {l : List α} {i : Nat} {x : α}
    (h : l[i]? = some x) : l.countP p = (l.eraseIdx i).countP p + if p x then 1 else 0 := by
  rcases List.getElem?_eq_some_iff.mp h with ⟨hi, hx⟩
  have hperm := List.getElem_cons_eraseIdx_perm hi
  rw [← hperm.countP_eq]
  rw [List.countP_cons]
  rw [hx]

def without (s : Uring) (i : Nat) : Uring :=
  { s with ring := s.ring.eraseIdx i }

theorem reads_without {s : Uring} {i : Nat} {r : UringRequest} (h : s.ring[i]? = some r) (fd : Int)
    : s.reads fd
        =
      (s.without i).reads fd + if r.eventType = .read ∧ r.clientSocket = fd then 1 else 0 := by
  unfold reads without
  rw [countP_eraseIdx _ h]
  simp only [decide_eq_true_eq]
  omega

theorem writes_without {s : Uring} {i : Nat} {r : UringRequest} (h : s.ring[i]? = some r) (fd : Int)
    : s.writes fd
        =
      (s.without i).writes fd + if r.eventType = .write ∧ r.clientSocket = fd then 1 else 0 := by
  unfold writes without
  rw [countP_eraseIdx _ h]
  simp only [decide_eq_true_eq]
  omega

theorem Inv.queues_without {s s' : Uring} (h : Inv s) {i : Nat}
    (hsame : SameRequests (s.without i) s')
    : (∀ fd ∈ s'.recvQue, ∃ c, s.connections fd = some c) ∧
      (∀ q ∈ s'.sendQue, s.connections q.fd = some q.buf.channel) ∧
      (∀ r ∈ s'.ring,
        s.connections r.clientSocket = some r.channel ∧ r.ptr.channel = r.channel) := by
  refine ⟨?_, ?_, ?_⟩
  . rw [hsame.recvQue]
    apply h.recvQue
  . rw [hsame.sendQue]
    apply h.sendQue
  . rw [hsame.ring]
    intro r hr
    apply h.ring r (List.mem_of_mem_eraseIdx hr)

/-! ### Closing -/

theorem Inv.removeFd {s : Uring} (h : Inv s) {fd : Int} {c : ChannelId}
    (hfd : s.connections fd = some c) (hreads : s.reads fd = 0) (hwrites : s.writes fd = 0)
    : ∃ s', s.removeFd c = .ok s' ∧ Inv s' := by
  have hrecv : fd ∉ s.recvQue := by
    unfold reads at hreads
    apply List.count_eq_zero.mp (by omega)
  have hsend (q : SendRequest) (hq : q ∈ s.sendQue) : q.fd ≠ fd := by
    unfold writes at hwrites
    have hcount : (s.sendQue.countP fun q => q.fd = fd) = 0 := by omega
    simpa using List.countP_eq_zero.mp hcount q hq
  have hring (r : UringRequest) (hr : r ∈ s.ring) : r.clientSocket ≠ fd := by
    unfold reads at hreads
    unfold writes at hwrites
    have hread : (s.ring.countP fun r => r.eventType = .read ∧ r.clientSocket = fd) = 0 := by omega
    have hwrite : (s.ring.countP fun r => r.eventType = .write ∧ r.clientSocket = fd) = 0 := by
      omega
    have hread := List.countP_eq_zero.mp hread r hr
    have hwrite := List.countP_eq_zero.mp hwrite r hr
    cases htype : r.eventType with
    | read => simpa [htype] using hread
    | write => simpa [htype] using hwrite
  unfold Uring.removeFd
  simp only [h.fd fd c hfd, hfd, if_true]
  refine ⟨_, rfl, ?_⟩
  have hother {fd' : Int} {c' : ChannelId}
      (hc' : Function.update s.connections fd none fd' = some c')
      : s.connections fd' = some c' ∧ fd' ≠ fd := by
    by_cases heq : fd' = fd
    . simp [heq] at hc'
    . simpa [heq] using hc'
  exact
    { recvQue := by
        intro fd' hfd'
        have hne : fd' ≠ fd := fun heq => hrecv (heq ▸ hfd')
        simpa [hne] using h.recvQue fd' hfd'
      sendQue := by
        intro q hq
        simpa [hsend q hq] using h.sendQue q hq
      ring := by
        intro r hr
        simpa [hring r hr] using h.ring r hr
      fd := fun fd' c' hc' => h.fd fd' c' (hother hc').1
      oneRead := fun fd' c' hc' => h.oneRead fd' c' (hother hc').1
      closing := fun fd' c' hc' => h.closing fd' c' (hother hc').1
      sendFlag := fun fd' c' hc' => h.sendFlag fd' c' (hother hc').1
      isOpen := by
        intro fd' c' hc'
        simpa [(hother hc').2] using h.isOpen fd' c' (hother hc').1
      fresh := fun fd' c' hc' => h.fresh fd' c' (hother hc').1
      removedFresh := by
        intro x hx
        rcases List.mem_append.mp hx with hold | hnew
        . refine ⟨(h.removedFresh x hold).1, ?_⟩
          intro fd' hc'
          exact (h.removedFresh x hold).2 fd' (hother hc').1
        . cases List.mem_singleton.mp hnew
          refine ⟨h.fresh fd c hfd, ?_⟩
          intro fd' hc'
          exact (hother hc').2 (h.inj (hother hc').1 hfd)
      removedOnce := by
        simp only [List.map_append, List.map_cons, List.map_nil]
        rw [List.nodup_append]
        refine ⟨h.removedOnce, by simp, ?_⟩
        intro c' hc' c'' hc''
        cases List.mem_singleton.mp hc''
        rcases List.mem_map.mp hc' with ⟨x, hx, hxc⟩
        intro heq
        apply (h.removedFresh x hx).2 fd
        rw [hxc, heq]
        exact hfd
      removedIdle := by
        intro x hx
        rcases List.mem_append.mp hx with hold | hnew
        . apply h.removedIdle x hold
        . cases List.mem_singleton.mp hnew
          simp only
          omega }

theorem Inv.close {s : Uring} (h : Inv s) {fd : Int} {c : ChannelId}
    (hfd : s.connections fd = some c) (hreads : s.reads fd = 0)
    : ∃ s', s.close c = .ok s' ∧ Inv s' := by
  unfold Uring.close
  by_cases hsend : (s.channels c).sendFlag > 0
  . rw [if_pos hsend]
    refine ⟨_, rfl, ?_⟩
    have hchannel (c' : ChannelId)
        : let ch := (s.modify c fun ch => { ch with closeFlag := true }).channels c'
          ch.fd = (s.channels c').fd ∧ ch.sendFlag = (s.channels c').sendFlag ∧
          (c' ≠ c → ch.closeFlag = (s.channels c').closeFlag) := by
      by_cases hc : c' = c
      . subst hc
        simp
      . simp [modify_channels_of_ne, hc]
    refine h.transfer rfl rfl rfl rfl (fun c' => (hchannel c').1) h.recvQue h.sendQue h.ring ?_ ?_
    . intro fd' c' hc'
      refine ⟨h.oneRead fd' c' hc', ?_⟩
      intro hclose
      by_cases hc : c' = c
      . subst hc
        rw [h.inj hc' hfd]
        exact hreads
      . rw [(hchannel c').2.2 hc] at hclose
        apply h.closing fd' c' hc' hclose
    . intro fd' c' hc'
      rw [(hchannel c').2.1]
      apply h.sendFlag fd' c' hc'
  . rw [if_neg hsend]
    have hflag := h.sendFlag fd c hfd
    exact (h.useHandle c).removeFd hfd hreads (by show s.writes fd = 0; omega)

end Uring
end Fish
