import FishRpc.Net.Lemmas.Buffer
import FishRpc.Net.Lemmas.UringEffects

/-!
This module contains the bytes that the kernel accepts on a connection. As long as a connection has
at most one request for the bytes of its send buffer, the accepted and the unsent bytes together are
the bytes that were given to `send`.
-/

namespace Fish
namespace Uring

open scoped List

def outstanding (s : Uring) : List SendRequest :=
  s.sendQue ++ (s.ring.filter fun r => r.eventType = .write).map queued

def SendsFrom (c : ChannelId) (q : SendRequest) : Prop :=
  q.buf.channel = c ∧ q.buf.side = .sendBuf ∧ q.size ≠ 0

instance (c : ChannelId) (q : SendRequest) : Decidable (SendsFrom c q) :=
  inferInstanceAs (Decidable (_ ∧ _ ∧ _))

-- the outstanding requests for bytes in the send buffer of `c`
def inFlight (s : Uring) (c : ChannelId) : List SendRequest :=
  s.outstanding.filter fun q => SendsFrom c q

-- a `send` of the kernel takes some of the bytes of its request
def KernelAccepts (s : Uring) : Event → Prop
  | .complete e =>
    ∀ r ∈ s.ring[e.index]?, r.eventType = .write → min 1 r.len ≤ e.res ∧ e.res ≤ r.len
  | _ => True

-- no bytes are requested twice, the send buffer does not grow and the receive buffer is not sent
def SendsApart (s : Uring) : Event → Prop
  | .send c view _ =>
    (s.channels c).closeFlag = true ∨
      (s.inFlight c = [] ∧
        view.length
          ≤ intToSize ((s.channels c).sendBuf.size - (s.channels c).sendBuf.writeIndex))
  | .complete e => ∀ r ∈ s.ring[e.index]?, r.eventType = .write → r.ptr.side = .sendBuf
  | _ => True

structure Sending (s : Uring) (c : ChannelId) : Prop where
  bounded : (s.channels c).sendBuf.Bounded
  one : (s.inFlight c).length ≤ 1
  current : ∀ q ∈ s.inFlight c,
    q.buf.storage = (s.channels c).sendBuf.storage ∧
    q.buf.offset = (s.channels c).sendBuf.readIndex ∧
    q.size = (s.channels c).sendBuf.unread.length
  given : s.accepted c ++ (s.channels c).sendBuf.unread <+: s.given c
  all : (s.channels c).closeFlag = false →
    s.accepted c ++ (s.channels c).sendBuf.unread = s.given c

structure InOrder (s : Uring) : Prop where
  sending : ∀ c, Sending s c
  fresh : ∀ c, s.next ≤ c → s.given c = [] ∧ s.accepted c = []

theorem inOrder_init (queueSize : Nat) : InOrder (init queueSize) where
  sending c :=
    { bounded := Buffer.bounded_new _ (by decide)
      one := Nat.zero_le 1
      current := by simp [inFlight, outstanding, init]
      given := List.nil_prefix
      all := fun _ => rfl }
  fresh _ _ := ⟨rfl, rfl⟩

theorem Sending.congr {s s' : Uring} {c : ChannelId} (h : Sending s c)
    (hperm : (s'.inFlight c).Perm (s.inFlight c))
    (hbuf : (s'.channels c).sendBuf = (s.channels c).sendBuf)
    (hopen : (s'.channels c).closeFlag = false → (s.channels c).closeFlag = false)
    (hgiven : s'.given c = s.given c) (haccepted : s'.accepted c = s.accepted c)
    : Sending s' c where
  bounded := by
    rw [hbuf]
    apply h.bounded
  one := by
    rw [hperm.length_eq]
    apply h.one
  current q hq := by
    rw [hbuf]
    apply h.current q (hperm.mem_iff.mp hq)
  given := by
    rw [hbuf, hgiven, haccepted]
    apply h.given
  all hclose := by
    rw [hbuf, hgiven, haccepted]
    apply h.all (hopen hclose)

theorem InOrder.congr {s s' : Uring} (h : InOrder s) (hperm : s'.outstanding.Perm s.outstanding)
    (hbuf : ∀ c, (s'.channels c).sendBuf = (s.channels c).sendBuf)
    (hopen : ∀ c, (s'.channels c).closeFlag = false → (s.channels c).closeFlag = false)
    (hgiven : s'.given = s.given) (haccepted : s'.accepted = s.accepted) (hnext : s'.next = s.next)
    : InOrder s' where
  sending c := by
    apply (h.sending c).congr (hperm.filter _) (hbuf c) (hopen c)
    . rw [hgiven]
    . rw [haccepted]
  fresh c hc := by
    rw [hgiven, haccepted]
    rw [hnext] at hc
    apply h.fresh c hc

theorem InOrder.quiet {s s' : Uring} {c : ChannelId} (h : InOrder s) (hquiet : Quiet c s s')
    : InOrder s'.freeSlot := by
  have hsame : s'.freeSlot.outstanding = s.outstanding := by
    show s'.outstanding = s.outstanding
    unfold outstanding
    rw [hquiet.ring, hquiet.sendQue]
  apply h.congr (by rw [hsame])
  . apply hquiet.sendBuf
  . apply hquiet.closeFlag
  . apply hquiet.given
  . apply hquiet.accepted
  . apply hquiet.next

/-! ### Outstanding requests -/

theorem outstanding_without {s : Uring} {i : Nat} {r : UringRequest} (hr : s.ring[i]? = some r)
    : s.outstanding.Perm
        ((if r.eventType = .write then [queued r] else []) ++ (s.without i).outstanding) := by
  rcases List.getElem?_eq_some_iff.mp hr with ⟨hi, hx⟩
  have hring := List.getElem_cons_eraseIdx_perm hi
  rw [hx] at hring
  have hwrites := (hring.filter fun r => r.eventType = .write).map queued
  unfold outstanding
  refine (hwrites.symm.append_left s.sendQue).trans ?_
  by_cases htype : r.eventType = .write
  . rw [if_pos htype]
    rw [List.filter_cons_of_pos (by simpa using htype)]
    apply List.perm_middle
  . rw [if_neg htype]
    rw [List.filter_cons_of_neg (by simpa using htype)]
    apply List.Perm.refl _

theorem filter_write_of_reads {rs : List UringRequest} (h : ∀ r ∈ rs, r.eventType = .read)
    : (rs.filter fun r => r.eventType = .write) = [] := by
  rw [List.filter_eq_nil_iff]
  intro r hr
  simp [h r hr]

theorem filter_write_of_writes {rs : List UringRequest} (h : ∀ r ∈ rs, r.eventType = .write)
    : (rs.filter fun r => r.eventType = .write) = rs := by
  rw [List.filter_eq_self]
  intro r hr
  simp [h r hr]

theorem sendsFrom_of_mem {s : Uring} {c : ChannelId} {q : SendRequest} (hq : q ∈ s.inFlight c)
    : SendsFrom c q :=
  of_decide_eq_true (List.mem_filter.mp hq).2

theorem Inv.connected_of_outstanding {s : Uring} (h : Inv s) {q : SendRequest}
    (hq : q ∈ s.outstanding) : s.connections q.fd = some q.buf.channel := by
  rcases List.mem_append.mp hq with hqueue | hring
  . apply h.sendQue q hqueue
  . rcases List.mem_map.mp hring with ⟨r, hr, hqueued⟩
    have hchannel := h.ring r (List.mem_of_mem_filter hr)
    rw [← hqueued]
    show s.connections r.clientSocket = some r.ptr.channel
    rw [hchannel.2]
    apply hchannel.1

theorem Inv.inFlight_fresh {s : Uring} (h : Inv s) {c : ChannelId} (hc : s.next ≤ c)
    : s.inFlight c = [] := by
  unfold inFlight
  rw [List.filter_eq_nil_iff]
  intro q hq hsends
  have hlt := h.fresh _ _ (h.connected_of_outstanding hq)
  rw [(of_decide_eq_true hsends).1] at hlt
  exact absurd hlt (Nat.not_lt.mpr hc)

/-! ### Opening and submitting -/

theorem Sending.opened {s : Uring} (h : InOrder s) (hinv : Inv s) (fd : Int) (heap : Int → Byte)
    : Sending ((s.opened fd heap).addReadRequest fd) s.next := by
  have hempty : ((s.opened fd heap).addReadRequest fd).inFlight s.next = [] :=
    hinv.inFlight_fresh (Nat.le_refl _)
  have hfresh := h.fresh s.next (Nat.le_refl _)
  have hnew : ((s.opened fd heap).addReadRequest fd).channels s.next = Channel.new fd 1024 heap := by
    simp [addReadRequest, Uring.opened]
  have hbytes : s.accepted s.next ++ (Channel.new fd 1024 heap).sendBuf.unread = s.given s.next := by
    rw [hfresh.1, hfresh.2]
    rfl
  refine ⟨?_, ?_, ?_, ?_, ?_⟩
  . rw [hnew]
    apply Buffer.bounded_new heap (by decide)
  . rw [hempty]
    apply Nat.zero_le 1
  . rw [hempty]
    intro q hq
    cases hq
  . rw [hnew]
    exact hbytes ▸ List.prefix_refl _
  . rw [hnew]
    exact fun _ => hbytes

theorem InOrder.addNewFd {s s' : Uring} (h : InOrder s) (hinv : Inv s) {fd : Int}
    {heap : Int → Byte} (hstep : s.addNewFd fd heap = .ok s') : InOrder s' := by
  rw [addNewFd_cases hstep]
  refine ⟨?_, fun c hc => h.fresh c (Nat.le_of_succ_le hc)⟩
  intro c
  by_cases hc : c = s.next
  . rw [hc]
    apply Sending.opened h hinv fd heap
  . have hold : ((s.opened fd heap).addReadRequest fd).channels c = s.channels c := by
      simp [addReadRequest, opened, hc]
    refine (h.sending c).congr (List.Perm.refl _) ?_ ?_ rfl rfl
    . rw [hold]
    . rw [hold]
      exact id

theorem InOrder.beginRecv {s s' : Uring} (h : InOrder s) (hstep : s.beginRecv = .ok s')
    : InOrder s' := by
  rcases beginRecv_cases hstep with ⟨rs, _, hread, hs'⟩
  rw [hs']
  refine h.congr ?_ (fun _ => rfl) (fun _ => id) rfl rfl rfl
  unfold outstanding
  rw [List.filter_append]
  rw [filter_write_of_reads fun r hr => (hread r hr).eventType]
  rw [List.append_nil]

theorem InOrder.beginSend {s s' : Uring} (h : InOrder s) (hstep : s.beginSend = .ok s')
    : InOrder s' := by
  rcases beginSend_cases hstep with ⟨rs, htake, hwrite, hs'⟩
  rw [hs']
  refine h.congr ?_ (fun _ => rfl) (fun _ => id) rfl rfl rfl
  let writes := (s.ring.filter fun r => r.eventType = .write).map queued
  have hring : ((s.ring ++ rs).filter fun r => r.eventType = .write).map queued
      = writes ++ s.sendQue.take s.slotsForSend := by
    rw [List.filter_append, filter_write_of_writes hwrite]
    rw [List.map_append, htake]
  show (s.sendQue.drop s.slotsForSend ++ List.map queued _).Perm (s.sendQue ++ writes)
  calc
    s.sendQue.drop s.slotsForSend ++
        ((s.ring ++ rs).filter fun r => r.eventType = .write).map queued
    _ = s.sendQue.drop s.slotsForSend ++ (writes ++ s.sendQue.take s.slotsForSend) := by rw [hring]
    _ ~ (writes ++ s.sendQue.take s.slotsForSend) ++ s.sendQue.drop s.slotsForSend :=
        List.perm_append_comm
    _ = writes ++ s.sendQue := by rw [List.append_assoc, List.take_append_drop]
    _ ~ s.sendQue ++ writes := List.perm_append_comm

/-! ### `send` -/

theorem perm_filter_cons {α : Type} {p : α → Bool} {l l' : List α} {x : α} (hperm : l' ~ x :: l)
    (h : l.filter p = []) : l'.filter p ~ [] ∨ l'.filter p ~ [x] := by
  have hfilter := hperm.filter p
  rw [List.filter_cons] at hfilter
  rw [h] at hfilter
  split at hfilter
  . exact Or.inr hfilter
  . exact Or.inl hfilter

theorem outstanding_sent (s : Uring) (c : ChannelId) (view : List Byte) (heap : Int → Byte)
    : let input := (s.channels c).sendBuf.input view heap
      (s.sent c view heap).outstanding.Perm
        (⟨(s.channels c).fd, ⟨c, .sendBuf, input.storage, input.readIndex⟩,
            sizeToInt input.disRead.size⟩ :: s.outstanding) := by
  intro input
  show ((s.sendQue ++ [_]) ++ _).Perm _
  rw [List.append_assoc]
  apply List.perm_middle

theorem Sending.sent {s : Uring} {c : ChannelId} (h : Sending s c) (hidle : s.inFlight c = [])
    (hopen : (s.channels c).closeFlag = false) {view : List Byte} (heap : Int → Byte)
    (hfit : view.length
      ≤ intToSize ((s.channels c).sendBuf.size - (s.channels c).sendBuf.writeIndex))
    : Sending (s.sent c view heap) c := by
  have hfree := h.bounded.free
  have hroom : (s.channels c).sendBuf.writeIndex + view.length ≤ (s.channels c).sendBuf.size := by
    omega
  have hbounded := h.bounded.push hroom
  have hunread := Buffer.unread_push h.bounded hroom
  have hlength := hbounded.length_unread_lt
  have hsize : sizeToInt ((s.channels c).sendBuf.push view).disRead.size
      = ((s.channels c).sendBuf.push view).unread.length := by
    rw [Buffer.length_unread] at hlength ⊢
    apply sizeToInt_of_lt hlength
  have hchannel := sent_channels_self s c view heap
  rw [Buffer.input_eq heap hfit] at hchannel
  have hperm := outstanding_sent s c view heap
  simp only [Buffer.input_eq heap hfit, hsize] at hperm
  have hinFlight : (s.sent c view heap).inFlight c ~ [] ∨ (s.sent c view heap).inFlight c ~ [_] :=
    perm_filter_cons hperm hidle
  have hgiven : (s.sent c view heap).given c = s.given c ++ view := by
    simp [Uring.sent, modify, addWriteRequest]
  have haccepted : (s.sent c view heap).accepted c = s.accepted c := rfl
  have hbytes : s.accepted c ++ ((s.channels c).sendBuf.push view).unread = s.given c ++ view := by
    rw [hunread]
    rw [← List.append_assoc]
    rw [h.all hopen]
  refine ⟨?_, ?_, ?_, ?_, ?_⟩
  . rw [hchannel]
    exact hbounded
  . rcases hinFlight with hnone | hone
    . rw [hnone.length_eq]
      apply Nat.zero_le 1
    . apply Nat.le_of_eq hone.length_eq
  . intro q hq
    rw [hchannel]
    rcases hinFlight with hnone | hone
    . cases hnone.mem_iff.mp hq
    . rw [List.mem_singleton.mp (hone.mem_iff.mp hq)]
      exact ⟨rfl, rfl, rfl⟩
  . rw [hchannel, hgiven, haccepted]
    exact hbytes ▸ List.prefix_refl _
  . intro _
    rw [hchannel, hgiven, haccepted]
    exact hbytes

theorem written_accepted_self (s : Uring) (r : UringRequest) (e : Completion)
    : (s.written r e).accepted r.channel
        =
      s.accepted r.channel ++ (s.channels r.ptr.channel).load r.ptr e.res.toNat e.data := by
  simp [written, accept, modify]

-- what the kernel takes are the first unread bytes of the send buffer
theorem Sending.taken {s : Uring} {r : UringRequest} (h : Sending s r.channel) (hinv : Inv s)
    {i : Nat} (hr : s.ring[i]? = some r) (htype : r.eventType = .write)
    (hside : r.ptr.side = .sendBuf) {res : Int} (hmin : min 1 r.len ≤ res) (hmax : res ≤ r.len)
    (freed : Nat → Byte)
    : let b := (s.channels r.channel).sendBuf
      0 ≤ res ∧
      res.toNat ≤ b.unread.length ∧
      (s.channels r.channel).load r.ptr res.toNat freed = b.unread.take res.toNat ∧
      ((s.without i).inFlight r.channel = [] ∨
        (res = 0 ∧ (s.without i).inFlight r.channel ~ s.inFlight r.channel)) := by
  intro b
  have howner := (hinv.ring r (List.mem_of_getElem? hr)).2
  have houtstanding := outstanding_without hr
  rw [if_pos htype] at houtstanding
  have hperm : s.inFlight r.channel ~
      ([queued r] ++ (s.without i).outstanding).filter fun q => SendsFrom r.channel q :=
    houtstanding.filter _
  rw [List.singleton_append] at hperm
  by_cases hlen : r.len = 0
  . have hzero : res = 0 := by omega
    have hskip : ¬SendsFrom r.channel (queued r) := fun hsends => hsends.2.2 hlen
    rw [List.filter_cons_of_neg (by simpa using hskip)] at hperm
    rw [hzero]
    refine ⟨Int.le_refl 0, Nat.zero_le _, ?_, Or.inr ⟨rfl, hperm.symm⟩⟩
    unfold Channel.load
    split
    . rfl
    . rfl
  . have hsends : SendsFrom r.channel (queued r) := ⟨howner, hside, hlen⟩
    rw [List.filter_cons_of_pos (by simpa using hsends)] at hperm
    have hcurrent := h.current (queued r) (hperm.mem_iff.mpr (List.mem_cons_self ..))
    have hstorage : r.ptr.storage = b.storage := hcurrent.1
    have hoffset : r.ptr.offset = b.readIndex := hcurrent.2.1
    have hsize : r.len = b.unread.length := hcurrent.2.2
    have hfit : res.toNat ≤ b.unread.length := by omega
    have hlast : (s.without i).inFlight r.channel = [] := by
      have hone := h.one
      rw [hperm.length_eq] at hone
      rw [List.length_cons] at hone
      apply List.eq_nil_of_length_eq_zero (Nat.le_zero.mp (Nat.le_of_succ_le_succ hone))
    refine ⟨by omega, hfit, ?_, Or.inl hlast⟩
    unfold Channel.load
    rw [hside]
    rw [if_pos (by exact hstorage)]
    rw [hoffset]
    apply Buffer.read_unread b hfit

theorem Sending.written {s : Uring} {r : UringRequest} (h : Sending s r.channel) (hinv : Inv s)
    {e : Completion} (hr : s.ring[e.index]? = some r) (htype : r.eventType = .write)
    (hside : r.ptr.side = .sendBuf) (hmin : min 1 r.len ≤ e.res) (hmax : e.res ≤ r.len)
    : Sending ((s.without e.index).written r e) r.channel := by
  let b := (s.channels r.channel).sendBuf
  let n := e.res.toNat
  have howner := (hinv.ring r (List.mem_of_getElem? hr)).2
  rcases h.taken hinv hr htype hside hmin hmax e.data with ⟨hpos, hfit, hload, hrest⟩
  have hlength := h.bounded.length_unread_lt
  have hsize : intToSize e.res = n := by
    have := Buffer.intToSize_eq hpos (by omega)
    omega
  have hchannel : ((s.without e.index).written r e).channels r.channel
      = { s.channels r.channel with sendBuf := b.eraseData n } := by
    rw [written_channels_self]
    rw [hsize]
    rfl
  have haccepted : ((s.without e.index).written r e).accepted r.channel
      = s.accepted r.channel ++ b.unread.take n := by
    rw [written_accepted_self]
    rw [howner]
    rw [← hload]
    rfl
  have hbytes : s.accepted r.channel ++ b.unread.take n ++ (b.eraseData n).unread
      = s.accepted r.channel ++ b.unread := by
    rw [Buffer.unread_eraseData h.bounded hfit]
    rw [List.append_assoc]
    rw [List.take_append_drop]
  have hinFlight : ((s.without e.index).written r e).inFlight r.channel
      = (s.without e.index).inFlight r.channel := rfl
  have hgiven : ((s.without e.index).written r e).given r.channel = s.given r.channel := rfl
  refine ⟨?_, ?_, ?_, ?_, ?_⟩
  . rw [hchannel]
    apply h.bounded.eraseData hfit
  . rw [hinFlight]
    rcases hrest with hnone | ⟨_, hsame⟩
    . rw [hnone]
      apply Nat.zero_le 1
    . rw [hsame.length_eq]
      apply h.one
  . intro q hq
    rw [hinFlight] at hq
    rcases hrest with hnone | ⟨hzero, hsame⟩
    . rw [hnone] at hq
      cases hq
    . have hcurrent := h.current q (hsame.mem_iff.mp hq)
      have hnonempty : q.size ≠ 0 := (sendsFrom_of_mem hq).2.2
      have hunread : q.size = b.unread.length := hcurrent.2.2
      have hkeep : b.eraseData n = b := by
        have hn : n = 0 := by omega
        rw [hn]
        apply Buffer.eraseData_zero h.bounded (by omega)
      rw [hchannel, hkeep]
      exact hcurrent
  . rw [hchannel, haccepted, hgiven]
    rw [hbytes]
    apply h.given
  . intro hclose
    rw [hchannel] at hclose ⊢
    rw [haccepted, hgiven]
    rw [hbytes]
    apply h.all hclose

theorem InOrder.send {s : Uring} (h : InOrder s) (hinv : Inv s) {c : ChannelId}
    {view : List Byte} {heap : Int → Byte} (henabled : s.Enabled (.send c view heap))
    (hapart : s.SendsApart (.send c view heap)) : InOrder (s.send c view heap) := by
  have hlt : c < s.next := hinv.fresh _ _ henabled
  have hother {c' : ChannelId} (hc : c' ≠ c)
      : Function.update s.given c (s.given c ++ view) c' = s.given c' := by simp [hc]
  have hfresh (c' : ChannelId) (hc : s.next ≤ c')
      : Function.update s.given c (s.given c ++ view) c' = [] ∧ s.accepted c' = [] := by
    rw [hother (Nat.ne_of_gt (Nat.lt_of_lt_of_le hlt hc))]
    apply h.fresh c' hc
  rw [send_eq]
  split
  . rename_i hclose
    refine ⟨?_, hfresh⟩
    intro c'
    by_cases hc : c' = c
    . subst hc
      have hold := h.sending c'
      refine ⟨hold.bounded, hold.one, hold.current, ?_, ?_⟩
      . simp only [Function.update_self]
        apply hold.given.trans (List.prefix_append _ _)
      . intro hopen
        exact absurd (hopen.symm.trans hclose) (by decide)
    . exact (h.sending c').congr (List.Perm.refl _) rfl id (hother hc) rfl
  . rename_i hopen
    have hopen : (s.channels c).closeFlag = false := by simpa using hopen
    have happart := hapart.resolve_left (by simp [hopen])
    refine ⟨?_, hfresh⟩
    intro c'
    by_cases hc : c' = c
    . subst hc
      exact (h.sending c').sent happart.1 hopen heap happart.2
    . have hchannel := sent_channels_of_ne s view heap hc
      refine (h.sending c').congr ?_ ?_ ?_ (hother hc) rfl
      . have hperm := (outstanding_sent s c view heap).filter fun q => SendsFrom c' q
        have hskip (fd : Int) (p : Pointer) (size : Int) (hp : p.channel = c)
            : ¬SendsFrom c' ⟨fd, p, size⟩ := fun hsends => hc (hsends.1.symm.trans hp)
        rw [List.filter_cons_of_neg (by simpa using hskip _ _ _ rfl)] at hperm
        exact hperm
      . rw [hchannel]
      . rw [hchannel]
        exact id

/-! ### Completions -/

theorem InOrder.written {s : Uring} {r : UringRequest} (h : InOrder s) (hinv : Inv s)
    {e : Completion} (hr : s.ring[e.index]? = some r) (htype : r.eventType = .write)
    (hside : r.ptr.side = .sendBuf) (hmin : min 1 r.len ≤ e.res) (hmax : e.res ≤ r.len)
    : InOrder ((s.without e.index).written r e) := by
  have howner := hinv.ring r (List.mem_of_getElem? hr)
  have hlt : r.channel < s.next := hinv.fresh _ _ howner.1
  have hother {c : ChannelId} (hc : c ≠ r.channel)
      : ((s.without e.index).written r e).accepted c = s.accepted c := by
    simp [Uring.written, accept, modify, without, hc]
  refine ⟨?_, ?_⟩
  . intro c
    by_cases hc : c = r.channel
    . subst hc
      exact (h.sending r.channel).written hinv hr htype hside hmin hmax
    . have hchannel := written_channels_of_ne (s.without e.index) e hc
      have hperm := (outstanding_without hr).filter fun q => SendsFrom c q
      have hskip : ¬SendsFrom c (queued r) := fun hsends => hc (hsends.1.symm.trans howner.2)
      rw [if_pos htype] at hperm
      rw [List.singleton_append] at hperm
      rw [List.filter_cons_of_neg (by simpa using hskip)] at hperm
      refine (h.sending c).congr hperm.symm ?_ ?_ rfl (hother hc)
      . rw [hchannel]
        rfl
      . rw [hchannel]
        exact id
  . intro c hc
    rw [hother (Nat.ne_of_gt (Nat.lt_of_lt_of_le hlt hc))]
    apply h.fresh c hc

theorem InOrder.addWriteRequest {s : Uring} (h : InOrder s) (fd : Int) {buf : Pointer} (size : Nat)
    (hside : buf.side = .readBuf) : InOrder (s.addWriteRequest fd buf size) := by
  refine ⟨?_, h.fresh⟩
  intro c
  refine (h.sending c).congr ?_ rfl id rfl rfl
  unfold inFlight outstanding Uring.addWriteRequest
  have hskip : ¬SendsFrom c ⟨fd, buf, sizeToInt size⟩ := by
    intro hsends
    have hsend : buf.side = .sendBuf := hsends.2.1
    rw [hside] at hsend
    cases hsend
  simp only [List.filter_append]
  rw [List.filter_singleton]
  simp [hskip]

theorem InOrder.complete {s s' : Uring} (h : InOrder s) (hinv : Inv s) {e : Completion}
    (hindex : e.index < s.ring.length) (hstep : s.complete e = .ok s')
    (haccepts : s.KernelAccepts (.complete e)) (hapart : s.SendsApart (.complete e))
    : InOrder s' := by
  rcases complete_cases hinv hindex hstep with ⟨r, hr, hread | hrequeued | hfreed⟩
  . rcases hread with ⟨htype, _, s₁, hquiet, hs'⟩
    have hperm := outstanding_without hr
    rw [if_neg (by simp [htype])] at hperm
    rw [hs']
    apply InOrder.quiet ?_ hquiet
    apply h.congr hperm.symm (fun _ => rfl) (fun _ => id) rfl rfl rfl
  . rcases hrequeued with ⟨htype, _, fd, buf, size, _, hside, hs'⟩
    have hres := haccepts r hr htype
    have hwritten := h.written hinv hr htype (hapart r hr htype) hres.1 hres.2
    rw [hs']
    apply hwritten.addWriteRequest fd size hside
  . rcases hfreed with ⟨htype, _, s₁, hquiet, hs'⟩
    have hres := haccepts r hr htype
    have hwritten := h.written hinv hr htype (hapart r hr htype) hres.1 hres.2
    rw [hs']
    apply hwritten.quiet hquiet

theorem InOrder.step {s s' : Uring} (h : InOrder s) (hinv : Inv s) {e : Event}
    (hstep : Step s e s') (haccepts : s.KernelAccepts e) (hapart : s.SendsApart e)
    : InOrder s' := by
  rcases hstep with ⟨henabled, hstep⟩
  cases e with
  | addNewFd fd heap => exact h.addNewFd hinv hstep
  | send c view heap =>
    cases hstep
    apply h.send hinv henabled hapart
  | beginRecv => exact h.beginRecv hstep
  | beginSend => exact h.beginSend hstep
  | complete e => exact h.complete hinv henabled hstep haccepts hapart

/--
If no bytes are requested twice, the send buffers do not grow and the receive buffers are not sent,
the kernel accepts a prefix of what was given to `send`.
-/
theorem accepted_prefix_of_sendsApart {queueSize : Nat} {es : List Event} {s : Uring}
    (h : Run Step (fun s e => KernelAccepts s e ∧ SendsApart s e) (init queueSize) es s)
    (c : ChannelId) : s.accepted c <+: s.given c := by
  have hinOrder : Inv s ∧ InOrder s := by
    apply h.invariant ⟨inv_init queueSize, inOrder_init queueSize⟩
    intro s e s' hs hmeets hstep
    exact ⟨hs.1.of_step hstep, hs.2.step hs.1 hstep hmeets.1 hmeets.2⟩
  exact (List.prefix_append _ _).trans (hinOrder.2.sending c).given

instance (s : Uring) (e : Event) : Decidable (s.KernelAccepts e) :=
  match e with
  | .addNewFd _ _ => isTrue trivial
  | .send _ _ _ => isTrue trivial
  | .beginRecv => isTrue trivial
  | .beginSend => isTrue trivial
  | .complete _ => inferInstanceAs (Decidable (∀ r ∈ _, _))

instance (s : Uring) (e : Event) : Decidable (s.SendsApart e) :=
  match e with
  | .addNewFd _ _ => isTrue trivial
  | .send _ _ _ => inferInstanceAs (Decidable (_ ∨ _))
  | .beginRecv => isTrue trivial
  | .beginSend => isTrue trivial
  | .complete _ => inferInstanceAs (Decidable (∀ r ∈ _, _))

theorem accepted_prefix_of_sendsApart_partial
    : ∃ s,
        Run Step (fun s e => KernelAccepts s e ∧ SendsApart s e) (init 8)
          [.addNewFd 5 zeroHeap, .beginRecv, .beginSend, .send 0 [1, 2] zeroHeap, .beginRecv,
            .beginSend, completes 1 1, .send 0 [3] zeroHeap, .beginRecv, .beginSend,
            completes 2 2] s ∧
        s.accepted 0 = [1, 2, 3] ∧
        s.accepted 0 <+: s.given 0 := by
  have hrun : (Run.execute next? (fun s e => KernelAccepts s e ∧ SendsApart s e) (init 8)
      [.addNewFd 5 zeroHeap, .beginRecv, .beginSend, .send 0 [1, 2] zeroHeap, .beginRecv,
        .beginSend, completes 1 1, .send 0 [3] zeroHeap, .beginRecv, .beginSend,
        completes 2 2]).map (fun s => s.accepted 0) = some [1, 2, 3] := by decide +kernel
  rcases Option.map_eq_some_iff.mp hrun with ⟨s, hs, haccepted⟩
  have hs := Run.of_execute step_of_next? hs
  exact ⟨s, hs, haccepted, accepted_prefix_of_sendsApart hs 0⟩

-- one byte is sent, the completion queues a byte of the receive buffer and that is sent as well
theorem not_accepted_prefix_requeue
    : ¬∀ queueSize es s,
        Run Step KernelAccepts (init queueSize) es s → ∀ c, s.accepted c <+: s.given c := by
  intro h
  have hrun : (Run.execute next? KernelAccepts (init 8)
      [.addNewFd 5 zeroHeap, .beginRecv, .beginSend, .send 0 [1] zeroHeap, .beginRecv, .beginSend,
        completes 1 1, .beginRecv, .beginSend, completes 1 1]).map
      (fun s => (s.accepted 0, s.given 0)) = some ([1, 0], [1]) := by decide +kernel
  rcases Option.map_eq_some_iff.mp hrun with ⟨s, hs, hbytes⟩
  have hprefix := h 8 _ s (Run.of_execute step_of_next? hs) 0
  rw [Prod.mk.injEq] at hbytes
  rw [hbytes.1, hbytes.2] at hprefix
  exact absurd hprefix (by decide)

end Uring
end Fish
