import FishRpc.Net.Lemmas.Buffer
import FishRpc.Net.Lemmas.UringAwaited
import FishRpc.Registry.Impl.RpcRegistry

/-!
This module contains the windows that the kernel receives into. In a loop that nobody sends on the
window of a submitted `READ` stays the free part of its receive buffer until the `READ` ends, so a
completion without an error is a `receive` into this buffer.
-/

namespace Fish
namespace Uring

variable {s s' : Uring} {e : Completion} {r : UringRequest} {c : ChannelId}

-- the bytes that the kernel has stored
def chunk (e : Completion) : List Byte := (List.range e.res.toNat).map e.data

-- at most the window is filled, and what is not positive is the end of the connection
def Clean (s : Uring) (e : Completion) : Prop :=
  ∀ r, s.ring[e.index]? = some r → if e.res ≤ 0 then e.errno = 0 else e.res ≤ r.len

instance (s : Uring) (e : Completion) : Decidable (s.Clean e) :=
  match h : s.ring[e.index]? with
  | none => isTrue fun r hr => by rw [h] at hr; cases hr
  | some r =>
    if hclean : if e.res ≤ 0 then e.errno = 0 else e.res ≤ r.len then
      isTrue fun r' hr' => by rw [h] at hr'; cases hr'; exact hclean
    else
      isFalse fun hall => hclean (hall r h)

def Windows (s : Uring) : Prop := ∀ r ∈ s.ring, Windowed s r

theorem length_chunk (e : Completion) : (chunk e).length = e.res.toNat := by
  unfold chunk
  rw [List.length_map, List.length_range]

theorem intToSize_of_nonneg {n : Int} (h : 0 ≤ n) (hlt : n < 2 ^ 31) : intToSize n = n.toNat := by
  have heq := Buffer.intToSize_eq h hlt
  omega

theorem Windowed.arrived_readBuf (h : Windowed s r) (hpos : 0 < e.res) (hlt : e.res < 2 ^ 31)
    : (((s.channels r.channel).store r.ptr (chunk e)).alreadyRead (intToSize e.res)).readBuf
        =
      (s.channels r.channel).readBuf.receive (chunk e) := by
  unfold Channel.store Channel.alreadyRead Buffer.receive
  rw [h.ptr, length_chunk, intToSize_of_nonneg (Int.le_of_lt hpos) hlt]
  simp only [if_true]

/-! ### Completions -/

-- a completion that the callback is run for
structure Received (s : Uring) (r : UringRequest) (e : Completion) : Prop where
  called : s.called e = some (r.channel, (s.channels r.channel).readBuf.receive (chunk e))
  nonempty : chunk e ≠ []
  fits : (chunk e).length ≤ (s.channels r.channel).readBuf.disWrite.size

theorem channels_close {s₁ : Uring} (hflag : (s₁.channels c).sendFlag = 0)
    (h : s₁.close c = .ok s') : s'.channels = s₁.channels := by
  rcases close_of_idle rfl hflag h with ⟨_, _, rfl⟩
  rfl

theorem Windowed.fits (h : Windowed s r) (hpos : 0 < e.res) (hle : e.res ≤ r.len)
    : (chunk e).length ≤ (s.channels r.channel).readBuf.disWrite.size := by
  have hlen := h.len
  rw [length_chunk]
  omega

theorem Windowed.res_lt (h : Windowed s r) (hvalid : (s.channels r.channel).readBuf.Valid)
    (hle : e.res ≤ r.len) : e.res < 2 ^ 31 := by
  have hlen := h.len
  have hsize := hvalid.disWrite_size
  have hsmall := hvalid.small
  have hread := hvalid.nonneg
  have hwrite := hvalid.le
  omega

theorem Windowed.unread (h : Windowed s r) (hvalid : (s.channels r.channel).readBuf.Valid)
    (hpos : 0 < e.res) (hle : e.res ≤ r.len)
    : (((s.channels r.channel).store r.ptr (chunk e)).alreadyRead
        (intToSize e.res)).dispReadBuf.size ≠ 0 := by
  have hlength := length_chunk e
  unfold Channel.dispReadBuf
  rw [h.arrived_readBuf hpos (h.res_lt hvalid hle), ← Buffer.length_unread]
  rw [Buffer.unread_receive hvalid (h.fits hpos hle), List.length_append]
  omega

theorem Windowed.received (h : Windowed s r) (hr : s.ring[e.index]? = some r)
    (hvalid : (s.channels r.channel).readBuf.Valid) (hpos : 0 < e.res) (hle : e.res ≤ r.len)
    : Received s r e := by
  have hbuf := h.arrived_readBuf hpos (h.res_lt hvalid hle)
  have hunread := h.unread hvalid hpos hle
  refine ⟨?_, ?_, h.fits hpos hle⟩
  . unfold called
    simp only [hr, h.eventType]
    rw [← hbuf]
    unfold chunk at hunread ⊢
    rw [if_neg (by simp only [hunread, or_false]; omega)]
  . intro hnil
    have hlength := length_chunk e
    rw [hnil, List.length_nil] at hlength
    omega

/--
A completion without an error removes the connection or is a receive that the callback is run for.
No other channel is touched.
-/
theorem complete_clean_cases (hinv : Inv s) (hr : s.ring[e.index]? = some r) (hwindow : Windowed s r)
    (hvalid : (s.channels r.channel).readBuf.Valid) (hflag : (s.channels r.channel).sendFlag = 0)
    (hclean : s.Clean e) (h : s.complete e = .ok s')
    : ((s.called e = none ∧ Dropped s e.index r.clientSocket s') ∨
        (Received s r e ∧ Renewed s e.index r.clientSocket s')) ∧
      ∀ c, c ≠ r.channel → s'.channels c = s.channels c := by
  have hconnected := hwindow.channel
  have hfd := hinv.fd _ _ hconnected
  have hwithout : (s.without e.index).connections r.clientSocket = some r.channel := hconnected
  have hstored := sameRequests_stored (s.without e.index) r e
  have harrived := sameRequests_arrived (s.without e.index) r e
  have hres := hclean r hr
  rw [complete_of_read hr hwindow.eventType] at h
  rw [readCompletion_eq e hwithout] at h
  by_cases hpos : 0 < e.res
  . rw [if_neg (by omega)] at hres
    rw [if_neg (by omega)] at h
    have hreceived := hwindow.received hr hvalid hpos hres
    have hunread : (((s.without e.index).arrived r e).channels r.channel).dispReadBuf.size ≠ 0 := by
      unfold arrived stored
      rw [modify_channels_self, modify_channels_self]
      exact hwindow.unread hvalid hpos hres
    rcases ok_of_map h with ⟨s₁, hresume, rfl⟩
    rw [resume_of_unread _ hunread] at hresume
    cases hresume
    refine ⟨Or.inr ⟨hreceived, ?_⟩, ?_⟩
    . rw [(harrived.flags r.channel).1.trans hfd]
      exact ⟨congrArg (· ++ [r.clientSocket]) harrived.recvQue, harrived.connections,
        harrived.openFds, harrived.sendQue, harrived.ring⟩
    . intro c hc
      have hframe : ((s.without e.index).arrived r e).channels c = s.channels c :=
        (modify_channels_of_ne _ _ hc).trans (modify_channels_of_ne _ _ hc)
      rw [← hframe]
      exact modify_channels_of_ne (((s.without e.index).arrived r e).useHandle r.channel)
        (fun ch => ch.eraseRead e.consumed) hc
  . rw [if_pos (by omega)] at hres
    rw [if_pos ⟨by omega, hres⟩] at h
    rcases ok_of_map h with ⟨s₁, hclose, rfl⟩
    have hflag₁ : (((s.without e.index).stored r e).channels r.channel).sendFlag = 0 :=
      (hstored.flags r.channel).2.1.trans hflag
    refine ⟨Or.inl ⟨?_, dropped_of_close hstored hfd hflag hclose⟩, ?_⟩
    . unfold called
      simp only [hr, hwindow.eventType]
      rw [if_pos (Or.inl ⟨by omega, hres⟩)]
    . intro c hc
      show s₁.channels c = s.channels c
      rw [channels_close hflag₁ hclose]
      exact modify_channels_of_ne _ _ hc

/-! ### Steps -/

theorem Windows.beginRecv (h : Windows s) (hstep : s.beginRecv = .ok s') : Windows s' := by
  rcases beginRecv_cases hstep with ⟨rs, _, hrs, rfl⟩
  intro r hr
  rcases List.mem_append.mp hr with hold | hnew
  . exact (h r hold).congr rfl rfl
  . exact (hrs r hnew).congr rfl rfl

theorem Windows.beginSend (h : Windows s) (hempty : s.sendQue = []) (hstep : s.beginSend = .ok s')
    : Windows s' := by
  rcases beginSend_cases hstep with ⟨rs, htake, _, rfl⟩
  rw [hempty, List.take_nil] at htake
  cases List.map_eq_nil_iff.mp htake
  intro r hr
  rw [List.append_nil] at hr
  exact (h r hr).congr rfl rfl

-- the channel and the connection of a request stay as they are
theorem Windowed.frame (h : Windowed s r)
    (hconnections : s'.connections r.clientSocket = s.connections r.clientSocket)
    (hchannels : s'.channels r.channel = s.channels r.channel) : Windowed s' r where
  eventType := h.eventType
  channel := by
    rw [hconnections]
    exact h.channel
  len := by
    rw [hchannels]
    exact h.len
  ptr := by
    rw [hchannels]
    exact h.ptr

theorem Windows.addNewFd (h : Windows s) (hinv : Inv s) {fd : Int} {heap : Int → Byte}
    (hopen : s.connections fd = none) (hstep : s.addNewFd fd heap = .ok s') : Windows s' := by
  rw [addNewFd_cases hstep]
  intro r hr
  have hwindow := h r hr
  have hne : r.clientSocket ≠ fd := by
    rintro rfl
    rw [hwindow.channel] at hopen
    cases hopen
  have hlt := hinv.fresh _ _ hwindow.channel
  apply hwindow.frame
  . exact Function.update_of_ne hne _ _
  . exact Function.update_of_ne (Nat.ne_of_lt hlt) _ _

-- there is one `READ` for each connection
theorem Receiving.ring_ne (h : Receiving s) (hinv : Inv s) (hr : s.ring[e.index]? = some r)
    {r' : UringRequest} (hr' : r' ∈ s.ring.eraseIdx e.index) : r'.clientSocket ≠ r.clientSocket := by
  intro heq
  have hcount := h.awaited r.clientSocket
  have herase := count_clientSocket_eraseIdx hr r.clientSocket
  have hpos : 0 < ((s.ring.eraseIdx e.index).map UringRequest.clientSocket).count r.clientSocket := by
    rw [List.count_pos_iff, List.mem_map]
    exact ⟨r', hr', heq⟩
  rw [(hinv.ring r (List.mem_of_getElem? hr)).1] at hcount
  rw [if_pos rfl] at herase
  unfold Uring.awaited at hcount
  simp only [List.count_append, Option.isSome_some, Bool.toNat_true] at hcount
  omega

theorem Windows.complete (h : Windows s) (hreceiving : Receiving s) (hinv : Inv s)
    (hr : s.ring[e.index]? = some r) (hring : s'.ring = s.ring.eraseIdx e.index)
    (hconnections : ∀ fd, fd ≠ r.clientSocket → s'.connections fd = s.connections fd)
    (hchannels : ∀ c, c ≠ r.channel → s'.channels c = s.channels c) : Windows s' := by
  intro r' hr'
  rw [hring] at hr'
  have hwindow := h r' (List.mem_of_mem_eraseIdx hr')
  have hsocket := hreceiving.ring_ne hinv hr hr'
  apply hwindow.frame
  . exact hconnections _ hsocket
  . apply hchannels
    intro heq
    have hchannel := hwindow.channel
    rw [heq] at hchannel
    exact hsocket (hinv.inj hchannel (h r (List.mem_of_getElem? hr)).channel)

end Uring
end Fish
