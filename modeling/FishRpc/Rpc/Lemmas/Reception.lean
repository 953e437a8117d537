import FishRpc.Lib.Run
import FishRpc.Rpc.Impl.Server
import FishRpc.Rpc.Lemmas.ProtocolManager
import FishRpc.Rpc.Lemmas.ProtocolRoundTrip
import Mathlib.Data.List.Forall2

/-!
This module contains the reception of a stream of messages that is cut into arbitrary pieces. A
`Reception` holds the code's state of one connection next to the position in the stream: which
messages have arrived completely, and how many bytes of the next one.
-/

namespace Fish

structure Reception where
  connection : Connection
  protocols : ProtocolManager
  arrived : List Protocol
  todo : List Protocol
  got : Nat

namespace Reception

open Protocol

variable (fd : Int) (mem : Memory)

def stream (todo : List Protocol) : List Byte :=
  todo.flatMap fun p => p.result mem

-- the messages whose last byte is among the next `n` bytes
def complete : List Protocol → Nat → List Protocol × List Protocol × Nat
  | [], n => ([], [], n)
  | p :: todo, n =>
    if (p.result mem).length ≤ n then
      let completed := complete todo (n - (p.result mem).length)
      (p :: completed.1, completed.2)
    else
      ([], p :: todo, n)

def init (heap : Int → Byte) (messages : List Protocol) : Reception where
  connection := Connection.new heap
  protocols := ProtocolManager.new
  arrived := []
  todo := messages
  got := 0

def step (s : Reception) (e : Arrival × HeadMsg) : Option Reception :=
  let chunk := e.1.chunk
  let rest := (stream mem s.todo).drop s.got
  if chunk ≠ [] ∧ chunk.length ≤ s.connection.readBuf.disWrite.size ∧ chunk <+: rest then
    let received := s.connection.receive s.protocols fd e.2 e.1
    let completed := complete mem s.todo (s.got + chunk.length)
    some
      { connection := received.1
        protocols := received.2
        arrived := s.arrived ++ completed.1
        todo := completed.2.1
        got := completed.2.2 }
  else
    none

/-! ### The pieces that are received correctly -/

def AwaitsHeader (s : Reception) : Prop :=
  ∀ p ∈ s.protocols.undoProtols fd, p.handleState = .free

-- what earlier messages have left in the receive buffer
def leftover (s : Reception) : List Byte :=
  s.connection.readBuf.unread.take (s.connection.readBuf.unread.length - s.got)

def BringsHeader (s : Reception) (m : Protocol) (got : Nat) : Prop :=
  dfMagic ∉ s.leftover ∧
  got < (m.result mem).length ∧
  (s.leftover.length + got < 15 ∨ 15 ≤ got)

def BringsContent (m : Protocol) (todo : List Protocol) (got : Nat) : Prop :=
  (got < 30 ∧ got < (m.result mem).length) ∨
  (30 ≤ got ∧
    (m.result mem).length ≤ got ∧
    m.contentLengthOf mem = m.content.length ∧
    ∀ m' ∈ todo.head?, got < (m.result mem).length + (m'.result mem).length)

def WellCut (s : Reception) (e : Arrival × HeadMsg) : Prop :=
  ∀ m todo, s.todo = m :: todo →
    m.getMagic = dfMagic ∧
    m.totalLength = dfHeadLength ∧
    (s.AwaitsHeader fd → s.BringsHeader mem m (s.got + e.1.chunk.length)) ∧
    (¬s.AwaitsHeader fd → BringsContent mem m todo (s.got + e.1.chunk.length))

/-! ### The invariant -/

structure Fresh (q : Protocol) : Prop where
  state : q.handleState = .free
  total : q.totalLength = dfHeadLength
  content : q.content = []

theorem fresh_new (raw : HeadMsg) : Fresh (Protocol.new raw) where
  state := new_handleState raw
  total := new_totalLength raw
  content := new_content raw

inductive Phase (s : Reception) : Prop where
  | header (awaits : s.AwaitsHeader fd) (fresh : ∀ raw, Fresh (s.protocols.current fd raw))
    (left : List Byte)
    (unread : s.connection.readBuf.unread = left ++ (stream mem s.todo).take s.got)
  | content (m p : Protocol) (todo : List Protocol) (next : s.todo = m :: todo)
    (found : s.protocols.undoProtols fd = some p) (state : p.handleState = .waitContent)
    (empty : p.content = []) (head : SameHead m p) (after : 15 ≤ s.got)
    (unread : s.connection.readBuf.unread = ((stream mem s.todo).take s.got).drop 15)

structure Inv (s : Reception) : Prop where
  valid : s.connection.readBuf.Valid
  within : ∀ m ∈ s.todo.head?, m.totalLength = dfHeadLength → s.got < (m.result mem).length
  returned : List.Forall₂ SameMessage s.arrived s.connection.returned
  phase : Phase fd mem s

theorem complete_of_lt {m : Protocol} {todo : List Protocol} {n : Nat}
    (h : n < (m.result mem).length) : complete mem (m :: todo) n = ([], m :: todo, n) := by
  unfold complete
  rw [if_neg (by omega)]

theorem complete_one {m : Protocol} {todo : List Protocol} {n : Nat}
    (h : (m.result mem).length ≤ n)
    (hnext : ∀ m' ∈ todo.head?, n < (m.result mem).length + (m'.result mem).length)
    : complete mem (m :: todo) n = ([m], todo, n - (m.result mem).length) := by
  unfold complete
  rw [if_pos h]
  cases todo with
  | nil => rfl
  | cons m' todo =>
    have := hnext m' (by simp)
    rw [complete_of_lt mem (by omega)]

theorem take_append_of_prefix_drop {α : Type} {l chunk : List α} {n : Nat} (h : chunk <+: l.drop n)
    : l.take n ++ chunk = l.take (n + chunk.length) := by
  rw [List.take_add]
  rw [← List.prefix_iff_eq_take.mp h]

-- what a completion hands to `create`
def arriving (s : Reception) (e : Arrival × HeadMsg) : Buffer :=
  s.connection.readBuf.receive e.1.chunk

theorem step_eq {s s' : Reception} {e : Arrival × HeadMsg} {size : Int} {q : Protocol}
    (hstep : step fd mem s e = some s')
    (hcreate : (s.protocols.current fd e.2).create (s.arriving e).unread
      (ProtocolManager.memory (s.arriving e) e.1.around) = (size, q))
    : let completed := complete mem s.todo (s.got + e.1.chunk.length)
      let flag := decide (q.handleState = .ready)
      s'.connection.readBuf = (s.arriving e).eraseData (max size 0).toNat ∧
      s'.connection.returned = s.connection.returned ++ (if flag then [q] else []) ∧
      s'.protocols.undoProtols
        = Function.update s.protocols.undoProtols fd (if flag then none else some q) ∧
      s'.arrived = s.arrived ++ completed.1 ∧
      s'.todo = completed.2.1 ∧
      s'.got = completed.2.2 := by
  unfold step at hstep
  simp only at hstep
  split at hstep
  . have hs' := (Option.some.inj hstep).symm
    have hread := ProtocolManager.readMes_eq s.protocols fd (s.arriving e) e.2 e.1.around
    rw [hcreate] at hread
    rw [hs']
    unfold Connection.receive
    unfold arriving at hread ⊢
    rw [hread]
    by_cases hready : q.handleState = .ready
    . simp [hready]
    . simp [hready]
  . cases hstep

theorem step_enabled {s s' : Reception} {e : Arrival × HeadMsg} (hstep : step fd mem s e = some s')
    : e.1.chunk ≠ [] ∧
      e.1.chunk.length ≤ s.connection.readBuf.disWrite.size ∧
      e.1.chunk <+: (stream mem s.todo).drop s.got := by
  unfold step at hstep
  simp only at hstep
  split at hstep
  . assumption
  . cases hstep

theorem todo_ne_nil {s s' : Reception} {e : Arrival × HeadMsg} (hstep : step fd mem s e = some s')
    : ∃ m todo, s.todo = m :: todo := by
  have henabled := step_enabled fd mem hstep
  cases hnext : s.todo with
  | nil =>
    rw [hnext] at henabled
    exact absurd (by simpa [stream] using henabled.2.2) henabled.1
  | cons m todo => exact ⟨m, todo, rfl⟩

theorem take_stream {m : Protocol} (todo : List Protocol) {n : Nat}
    (h : n ≤ (m.result mem).length)
    : (stream mem (m :: todo)).take n = (m.result mem).take n := by
  unfold stream
  rw [List.flatMap_cons]
  apply List.take_append_of_le_length h

variable {fd mem}

theorem Inv.arriving {s s' : Reception} {e : Arrival × HeadMsg} (h : Inv fd mem s)
    (hstep : step fd mem s e = some s')
    : (s.arriving e).Valid ∧
      (s.arriving e).unread = s.connection.readBuf.unread ++ e.1.chunk := by
  have henabled := step_enabled fd mem hstep
  exact ⟨h.valid.receive henabled.2.1, Buffer.unread_receive h.valid henabled.2.1⟩

-- a completion that leaves the message that is arriving unfinished
theorem Inv.step_within {s s' : Reception} {e : Arrival × HeadMsg} (h : Inv fd mem s)
    (hstep : step fd mem s e = some s') {m : Protocol} {todo : List Protocol}
    (hnext : s.todo = m :: todo) (hgot : s.got + e.1.chunk.length < (m.result mem).length)
    {size : Int} {q : Protocol}
    (hcreate : (s.protocols.current fd e.2).create (s.arriving e).unread
      (ProtocolManager.memory (s.arriving e) e.1.around) = (size, q))
    (hstate : q.handleState ≠ .ready)
    (hsize : (max size 0).toNat ≤ (s.arriving e).unread.length)
    (hphase : s'.connection.readBuf.unread = (s.arriving e).unread.drop (max size 0).toNat →
      s'.todo = m :: todo → s'.got = s.got + e.1.chunk.length →
      s'.protocols.undoProtols fd = some q → Phase fd mem s')
    : Inv fd mem s' := by
  have harriving := h.arriving hstep
  have hs' := step_eq fd mem hstep hcreate
  rw [hnext, complete_of_lt mem hgot] at hs'
  simp only [hstate, decide_false, Bool.false_eq_true, if_false, List.append_nil] at hs'
  rcases hs' with ⟨hbuf, hreturned, htable, harrived, htodo, hgot'⟩
  exact
    { valid := by
        rw [hbuf]
        apply harriving.1.eraseData hsize
      within := by
        intro m' hm' _
        rw [htodo] at hm'
        cases hm'
        rw [hgot']
        exact hgot
      returned := by
        rw [hreturned, harrived]
        apply h.returned
      phase := by
        apply hphase _ htodo hgot'
        . rw [htable]
          apply Function.update_self _ _ _
        . rw [hbuf]
          apply Buffer.unread_eraseData harriving.1.bounded hsize }

theorem Inv.step_short {s s' : Reception} {e : Arrival × HeadMsg} (h : Inv fd mem s)
    (hstep : step fd mem s e = some s') {m : Protocol} {todo : List Protocol}
    (hnext : s.todo = m :: todo) (hgot : s.got + e.1.chunk.length < (m.result mem).length)
    (hshort : (s.arriving e).unread.length < 15)
    (hstate : (s.protocols.current fd e.2).handleState ≠ .ready)
    (hphase : s'.connection.readBuf.unread = (s.arriving e).unread → s'.todo = s.todo →
      s'.got = s.got + e.1.chunk.length →
      s'.protocols.undoProtols fd = some (s.protocols.current fd e.2) → Phase fd mem s')
    : Inv fd mem s' := by
  apply h.step_within hstep hnext hgot (create_short _ _ hshort) hstate (Nat.zero_le _)
  intro hunread htodo hgot' hfound
  apply hphase hunread _ hgot' hfound
  rw [htodo, hnext]

theorem leftover_eq {s : Reception} (h : Inv fd mem s) {m : Protocol} {todo : List Protocol}
    (hnext : s.todo = m :: todo) (htotal : m.totalLength = dfHeadLength) {left : List Byte}
    (hunread : s.connection.readBuf.unread = left ++ (stream mem s.todo).take s.got)
    : s.leftover = left := by
  have hwithin := h.within m (by simp [hnext]) htotal
  have hlen : ((stream mem s.todo).take s.got).length = s.got := by
    rw [hnext]
    rw [take_stream mem todo (by omega)]
    apply List.length_take_of_le (by omega)
  unfold leftover
  rw [hunread]
  rw [List.length_append]
  rw [hlen]
  rw [Nat.add_sub_cancel]
  apply List.take_left

theorem arriving_unread {s s' : Reception} {e : Arrival × HeadMsg} (h : Inv fd mem s)
    (hstep : step fd mem s e = some s') {left : List Byte}
    (hunread : s.connection.readBuf.unread = left ++ (stream mem s.todo).take s.got)
    : (s.arriving e).unread = left ++ (stream mem s.todo).take (s.got + e.1.chunk.length) := by
  have henabled := step_enabled fd mem hstep
  rw [(h.arriving hstep).2]
  rw [hunread]
  rw [List.append_assoc]
  rw [take_append_of_prefix_drop henabled.2.2]

theorem take_result {m : Protocol} (htotal : m.totalLength = dfHeadLength) {n : Nat} (hn : 15 ≤ n)
    : (m.result mem).take n = m.msg.bytes 0 15 ++ m.content.take (n - 15) := by
  have hbytes := m.msg.length_head
  rw [result_eq m mem htotal]
  rw [List.take_append]
  rw [hbytes]
  rw [List.take_of_length_le (by omega)]

theorem length_result (mem : Memory) {m : Protocol} (htotal : m.totalLength = dfHeadLength)
    : (m.result mem).length = 15 + m.content.length := by
  have hbytes := m.msg.length_head
  rw [result_eq m mem htotal]
  rw [List.length_append]
  rw [hbytes]

theorem Inv.step_header {s s' : Reception} {e : Arrival × HeadMsg} (h : Inv fd mem s)
    (hstep : step fd mem s e = some s') {m : Protocol} {todo : List Protocol}
    (hnext : s.todo = m :: todo) (hmagic : m.getMagic = dfMagic)
    (htotal : m.totalLength = dfHeadLength) (fresh : ∀ raw, Fresh (s.protocols.current fd raw))
    {left : List Byte} (hleft : dfMagic ∉ left)
    (hunread : s.connection.readBuf.unread = left ++ (stream mem s.todo).take s.got)
    (hgot : s.got + e.1.chunk.length < (m.result mem).length)
    (hlong : 15 ≤ s.got + e.1.chunk.length) : Inv fd mem s' := by
  have hbytes := m.msg.length_head
  have harriving := h.arriving hstep
  have hview := arriving_unread h hstep hunread
  rw [hnext] at hview
  rw [take_stream mem todo (by omega)] at hview
  have hdrop : (s.arriving e).unread.drop (left.length + 15)
      = ((m.result mem).take (s.got + e.1.chunk.length)).drop 15 := by
    rw [hview]
    rw [List.drop_append]
    rw [List.drop_eq_nil_of_le (by omega)]
    rw [Nat.add_sub_cancel_left]
    rfl
  have hlen := harriving.1.bounded.length_unread_lt
  have hfit : left.length + 15 ≤ (s.arriving e).unread.length := by
    rw [hview]
    rw [List.length_append]
    rw [List.length_take_of_le (by omega)]
    omega
  rw [take_result htotal hlong] at hview
  rw [← List.append_assoc] at hview
  rcases create_header hmagic htotal (fresh e.2).state (fresh e.2).total hleft (by omega)
    (m.content.take (s.got + e.1.chunk.length - 15))
    (ProtocolManager.memory (s.arriving e) e.1.around) with
    ⟨q, hcreate, hstate, hcontent, hhead⟩
  rw [← hview] at hcreate
  have hsize : (max ((left.length + 15 : Nat) : Int) 0).toNat = left.length + 15 := by omega
  apply h.step_within hstep hnext hgot hcreate (by simp [hstate]) (by omega)
  intro hunread' htodo hgot' hfound
  apply Phase.content m q todo htodo hfound hstate _ hhead
  . rw [hgot']
    exact hlong
  . rw [hunread', hsize]
    rw [hdrop]
    rw [htodo, hgot']
    rw [take_stream mem todo (by omega)]
  . rw [hcontent]
    exact (fresh e.2).content

theorem arriving_unread_drop {s s' : Reception} {e : Arrival × HeadMsg} (h : Inv fd mem s)
    (hstep : step fd mem s e = some s') {m : Protocol} {todo : List Protocol}
    (hnext : s.todo = m :: todo) (htotal : m.totalLength = dfHeadLength) (hafter : 15 ≤ s.got)
    (hunread : s.connection.readBuf.unread = ((stream mem s.todo).take s.got).drop 15)
    : (s.arriving e).unread
        =
      ((stream mem s.todo).take (s.got + e.1.chunk.length)).drop 15 := by
  have henabled := step_enabled fd mem hstep
  have hwithin := h.within m (by simp [hnext]) htotal
  have hlen : 15 ≤ ((stream mem s.todo).take s.got).length := by
    rw [hnext]
    rw [take_stream mem todo (by omega)]
    rw [List.length_take_of_le (by omega)]
    exact hafter
  rw [(h.arriving hstep).2]
  rw [hunread]
  rw [← List.drop_append_of_le_length hlen]
  rw [take_append_of_prefix_drop henabled.2.2]

theorem drop_take_stream {m : Protocol} (todo : List Protocol) (htotal : m.totalLength = dfHeadLength)
    (n : Nat)
    : ((stream mem (m :: todo)).take n).drop 15 = (m.content ++ stream mem todo).take (n - 15) := by
  have hbytes := m.msg.length_head
  have hstream : stream mem (m :: todo) = m.msg.bytes 0 15 ++ (m.content ++ stream mem todo) := by
    rw [stream, List.flatMap_cons]
    rw [result_eq m mem htotal]
    rw [List.append_assoc]
    rfl
  rw [List.drop_take]
  rw [hstream]
  rw [List.drop_left' hbytes]

theorem Inv.step_content {s s' : Reception} {e : Arrival × HeadMsg} (h : Inv fd mem s)
    (hstep : step fd mem s e = some s') {m p : Protocol} {todo : List Protocol}
    (hnext : s.todo = m :: todo) (htotal : m.totalLength = dfHeadLength)
    (hfound : s.protocols.undoProtols fd = some p) (hstate : p.handleState = .waitContent)
    (hempty : p.content = []) (hhead : SameHead m p) (hafter : 15 ≤ s.got)
    (hunread : s.connection.readBuf.unread = ((stream mem s.todo).take s.got).drop 15)
    (hlong : 30 ≤ s.got + e.1.chunk.length)
    (hgot : (m.result mem).length ≤ s.got + e.1.chunk.length)
    (hlength : m.contentLengthOf mem = m.content.length)
    (hone : ∀ m' ∈ todo.head?,
      s.got + e.1.chunk.length < (m.result mem).length + (m'.result mem).length)
    : Inv fd mem s' := by
  have harriving := h.arriving hstep
  have henabled := step_enabled fd mem hstep
  have hview := arriving_unread_drop h hstep hnext htotal hafter hunread
  rw [hnext, drop_take_stream todo htotal] at hview
  have hm := length_result mem htotal
  have hwithin := h.within m (by simp [hnext]) htotal
  have hchunk := henabled.2.2.length_le
  have htotal' : (stream mem s.todo).length = (m.result mem).length + (stream mem todo).length := by
    rw [hnext]
    simp [stream]
  have hviewLen : (s.arriving e).unread.length = s.got + e.1.chunk.length - 15 := by
    rw [List.length_drop] at hchunk
    rw [hview]
    apply List.length_take_of_le
    rw [List.length_append]
    omega
  have hrest : (s.arriving e).unread
      = m.content ++ (stream mem todo).take (s.got + e.1.chunk.length - (m.result mem).length) := by
    rw [hview]
    rw [List.take_append]
    rw [List.take_of_length_le (by omega)]
    rw [hm]
    congr 2
    omega
  let mem' := ProtocolManager.memory (s.arriving e) e.1.around
  have hcreate : (s.protocols.current fd e.2).create (s.arriving e).unread mem'
      = (0, ⟨(p.setContentLength (BitVec.ofInt 32 (p.announced mem'))).msg, m.content, .ready⟩) := by
    rw [ProtocolManager.current_of_some e.2 hfound]
    rw [create_long p mem' (by omega)]
    simp only [hstate]
    rw [createWaitContent_of_nil _ mem' hempty]
    simp only
    rw [hhead.contentLengthOf mem mem' htotal]
    rw [hlength]
    rw [if_neg (by omega)]
    rw [hrest]
    rw [List.take_left]
  have hs' := step_eq fd mem hstep hcreate
  rw [hnext, complete_one mem hgot hone] at hs'
  simp only [decide_true, if_true] at hs'
  rcases hs' with ⟨hbuf, hreturned, htable, harrived, htodo, hgot'⟩
  have hzero : (max (0 : Int) 0).toNat = 0 := rfl
  rw [hzero] at hbuf
  have hnone : s'.protocols.undoProtols fd = none := by
    rw [htable]
    apply Function.update_self _ _ _
  exact
    { valid := by
        rw [hbuf]
        apply harriving.1.eraseData (Nat.zero_le _)
      within := by
        intro m' hm' _
        rw [htodo] at hm'
        have := hone m' hm'
        rw [hgot']
        omega
      returned := by
        rw [hreturned, harrived]
        refine List.rel_append h.returned (.cons ⟨?_, ?_, ?_, rfl⟩ .nil)
        . exact (setContentLength_field p _ (by omega)).trans (hhead.field (by omega))
        . exact (setContentLength_field p _ (by omega)).trans (hhead.field (by omega))
        . exact (setContentLength_field p _ (by omega)).trans (hhead.field (by omega))
      phase := by
        apply Phase.header _ _ m.content
        . rw [hbuf]
          rw [Buffer.unread_eraseData harriving.1.bounded (Nat.zero_le _)]
          rw [hrest]
          rw [htodo, hgot']
          rfl
        . intro p' hp'
          rw [hnone] at hp'
          cases hp'
        . intro raw
          rw [ProtocolManager.current_of_none raw hnone]
          exact fresh_new raw }

theorem Inv.step {s s' : Reception} {e : Arrival × HeadMsg} (h : Inv fd mem s)
    (hcut : WellCut fd mem s e) (hstep : step fd mem s e = some s') : Inv fd mem s' := by
  rcases todo_ne_nil fd mem hstep with ⟨m, todo, hnext⟩
  rcases hcut m todo hnext with ⟨hmagic, htotal, hheader, hcontent⟩
  cases h.phase with
  | header awaits fresh left unread =>
    rcases hheader awaits with ⟨hleft, hgot, hlen⟩
    rw [leftover_eq h hnext htotal unread] at hleft hlen
    rcases hlen with hshort | hlong
    . have hview := arriving_unread h hstep unread
      rw [hnext] at hview
      rw [take_stream mem todo (by omega)] at hview
      have hlen : (s.arriving e).unread.length < 15 := by
        rw [hview]
        rw [List.length_append]
        rw [List.length_take_of_le (by omega)]
        exact hshort
      have hfree := (fresh e.2).state
      apply h.step_short hstep hnext hgot hlen (by simp [hfree])
      intro hunread htodo hgot' hfound
      apply Phase.header _ _ left
      . rw [hunread, hview]
        rw [htodo, hgot', hnext]
        rw [take_stream mem todo (by omega)]
      . intro p hp
        rw [hfound] at hp
        cases hp
        exact hfree
      . intro raw
        rw [ProtocolManager.current_of_some raw hfound]
        apply fresh e.2
    . apply h.step_header hstep hnext hmagic htotal fresh hleft unread hgot hlong
  | content m' p todo' next found state empty head after unread =>
    rw [hnext] at next
    cases next
    have hawaits : ¬s.AwaitsHeader fd := by
      intro hall
      have := hall p found
      rw [state] at this
      cases this
    rcases hcontent hawaits with ⟨hshort, hgot⟩ | ⟨hlong, hgot, hlength, hone⟩
    . have hview := arriving_unread_drop h hstep hnext htotal after unread
      have hlen : (s.arriving e).unread.length < 15 := by
        rw [hview]
        rw [List.length_drop]
        rw [List.length_take]
        omega
      have hcurrent := ProtocolManager.current_of_some e.2 found
      apply h.step_short hstep hnext hgot hlen (by simp [hcurrent, state])
      intro hunread htodo hgot' hfound
      rw [hcurrent] at hfound
      apply Phase.content m p todo (htodo.trans hnext) hfound state empty head (by omega)
      rw [hunread, hview]
      rw [htodo, hgot']
    . exact h.step_content hstep hnext htotal found state empty head after unread hlong hgot
        hlength hone

theorem inv_init (heap : Int → Byte) (messages : List Protocol)
    : Inv fd mem (init heap messages) where
  valid := Buffer.valid_new heap (by decide) (by decide)
  within m _ htotal := by
    rw [length_result mem htotal]
    show 0 < _
    omega
  returned := .nil
  phase := by
    apply Phase.header _ _ []
    . rfl
    . intro p hp
      cases hp
    . exact fresh_new

/-! ### Runs -/

theorem complete_spec (mem : Memory) (todo : List Protocol) (n : Nat)
    : let completed := complete mem todo n
      todo = completed.1 ++ completed.2.1 ∧
      n = (stream mem completed.1).length + completed.2.2 ∧
      ∀ m ∈ completed.2.1.head?, completed.2.2 < (m.result mem).length := by
  induction todo generalizing n with
  | nil => simp [complete, stream]
  | cons m todo ih =>
    unfold complete
    split
    . rename_i hle
      rcases ih (n - (m.result mem).length) with ⟨htodo, hn, hhead⟩
      refine ⟨congrArg (m :: ·) htodo, ?_, hhead⟩
      simp only [stream, List.flatMap_cons, List.length_append] at hn ⊢
      omega
    . simpa [stream] using Nat.lt_of_not_le (by assumption)

theorem take_stream_complete (todo : List Protocol) (n : Nat)
    : let completed := complete mem todo n
      (stream mem todo).take n
        =
      stream mem completed.1 ++ (stream mem completed.2.1).take completed.2.2 := by
  intro completed
  have hspec : todo = completed.1 ++ completed.2.1 ∧
      n = (stream mem completed.1).length + completed.2.2 ∧ _ := complete_spec mem todo n
  have hstream : stream mem todo = stream mem completed.1 ++ stream mem completed.2.1 := by
    rw [hspec.1]
    apply List.flatMap_append
  rw [hstream]
  rw [hspec.2.1]
  apply List.take_length_add_append _

theorem arrived_spec {heap : Int → Byte} {messages : List Protocol} {es : List (Arrival × HeadMsg)}
    {s : Reception}
    (h : Run (fun s e s' => step fd mem s e = some s') Run.Always (init heap messages) es s)
    : messages = s.arrived ++ s.todo ∧
      (es.flatMap fun e => e.1.chunk) = stream mem s.arrived ++ (stream mem s.todo).take s.got ∧
      ∀ m ∈ s.todo.head?, es ≠ [] → s.got < (m.result mem).length := by
  induction h with
  | nil => simp [init, stream]
  | @snoc es s s' e _ _ hstep ih =>
    rcases ih with ⟨hmessages, hbytes, _⟩
    have henabled := step_enabled fd mem hstep
    have hs' := step_eq fd mem hstep rfl
    rcases hs' with ⟨_, _, _, harrived, htodo, hgot⟩
    rcases complete_spec mem s.todo (s.got + e.1.chunk.length) with ⟨hsplit, hn, hhead⟩
    rw [← htodo, ← hgot] at hhead
    refine ⟨?_, ?_, fun m hm _ => hhead m hm⟩
    . rw [harrived, htodo]
      rw [List.append_assoc]
      rw [← hsplit]
      exact hmessages
    . rw [List.flatMap_append]
      rw [hbytes]
      rw [List.flatMap_singleton]
      rw [List.append_assoc]
      rw [take_append_of_prefix_drop henabled.2.2]
      rw [harrived, htodo, hgot]
      rw [take_stream_complete]
      simp [stream]

/--
If the stream is cut such that every piece is received correctly, the messages that have been
returned after each piece are those that have arrived completely by then.
-/
theorem returned_of_wellCut {heap : Int → Byte} {messages : List Protocol}
    {es : List (Arrival × HeadMsg)} {s : Reception}
    (h : Run (fun s e s' => step fd mem s e = some s') (WellCut fd mem) (init heap messages) es s)
    : (messages = s.arrived ++ s.todo ∧
        (es.flatMap fun e => e.1.chunk) = stream mem s.arrived ++ (stream mem s.todo).take s.got ∧
        ∀ m ∈ s.todo.head?, es ≠ [] → s.got < (m.result mem).length) ∧
      List.Forall₂ SameMessage s.arrived s.connection.returned := by
  have hinv : Inv fd mem s :=
    h.invariant (inv_init heap messages) fun _ _ _ hs hcut hstep => hs.step hcut hstep
  exact ⟨arrived_spec h.always, hinv.returned⟩

instance (s : Reception) : Decidable (s.AwaitsHeader fd) :=
  inferInstanceAs (Decidable (∀ p ∈ s.protocols.undoProtols fd, p.handleState = .free))

instance (s : Reception) (m : Protocol) (got : Nat) : Decidable (s.BringsHeader mem m got) :=
  inferInstanceAs (Decidable (_ ∧ _))

instance (m : Protocol) (todo : List Protocol) (got : Nat)
    : Decidable (BringsContent mem m todo got) :=
  inferInstanceAs (Decidable (_ ∨ _))

instance (s : Reception) (e : Arrival × HeadMsg) : Decidable (WellCut fd mem s e) :=
  match h : s.todo with
  | [] => isTrue fun m todo hnext => by simp [h] at hnext
  | m :: todo =>
    decidable_of_iff
      (m.getMagic = dfMagic ∧
        m.totalLength = dfHeadLength ∧
        (s.AwaitsHeader fd → s.BringsHeader mem m (s.got + e.1.chunk.length)) ∧
        (¬s.AwaitsHeader fd → BringsContent mem m todo (s.got + e.1.chunk.length)))
      ⟨fun hcut m' todo' hnext => by
        rw [h] at hnext
        cases hnext
        exact hcut, fun hcut => hcut m todo h⟩

def nowhere : Memory where
  past _ := 0
  around _ := 0

def letters (n : Nat) (id : BitVec 32) : Protocol :=
  packet ⟨fun _ => 0⟩ 1 id (List.replicate n 65)

def pieces (bytes : List Byte) : List Nat → List (Arrival × HeadMsg)
  | [] => []
  | n :: cuts => (⟨bytes.take n, fun _ => 0⟩, ⟨fun _ => 0⟩) :: pieces (bytes.drop n) cuts

-- the last byte of the id and the length 282, read as digits, happen to announce 282
def luckyMessages : List Protocol :=
  [letters 282 0x33000007, letters 3 0]

theorem returned_of_wellCut_lucky
    : let es := pieces (stream nowhere luckyMessages) [10, 15, 4, 268, 16]
      ∃ s,
        (s.connection.returned.length = 1 ∧
          Run (fun s e s' => step 5 nowhere s e = some s') (WellCut 5 nowhere)
            (init (fun _ => 0) luckyMessages) es s) ∧
        (luckyMessages = s.arrived ++ s.todo ∧
          (es.flatMap fun e => e.1.chunk)
            = stream nowhere s.arrived ++ (stream nowhere s.todo).take s.got ∧
          ∀ m ∈ s.todo.head?, es ≠ [] → s.got < (m.result nowhere).length) ∧
        List.Forall₂ SameMessage s.arrived s.connection.returned := by
  intro es
  have hrun : (Run.execute (step 5 nowhere) (WellCut 5 nowhere) (init (fun _ => 0) luckyMessages)
      es).map (fun s => s.connection.returned.length) = some 1 := by decide +kernel
  rcases Option.map_eq_some_iff.mp hrun with ⟨s, hs, hlen⟩
  have hs := Run.of_execute (fun _ _ _ => id) hs
  exact ⟨s, ⟨hlen, hs⟩, returned_of_wellCut hs⟩

theorem not_returned_onePiece
    : ∃ s,
        Run (fun s e s' => step 5 nowhere s e = some s') Run.Always
          (init (fun _ => 0) [letters 20 7]) (pieces (stream nowhere [letters 20 7]) [35]) s ∧
        s.todo = [] ∧
        s.connection.returned = [] ∧
        ¬List.Forall₂ SameMessage s.arrived s.connection.returned := by
  have hrun : (Run.execute (step 5 nowhere) Run.Always (init (fun _ => 0) [letters 20 7])
      (pieces (stream nowhere [letters 20 7]) [35])).map
        (fun s => (s.todo.length, s.arrived.length, s.connection.returned.length))
      = some (0, 1, 0) := by decide +kernel
  rcases Option.map_eq_some_iff.mp hrun with ⟨s, hs, hlen⟩
  simp only [Prod.mk.injEq] at hlen
  refine ⟨s, Run.of_execute (fun _ _ _ => id) hs, List.length_eq_zero_iff.mp hlen.1,
    List.length_eq_zero_iff.mp hlen.2.2, ?_⟩
  intro hsame
  have := hsame.length_eq
  omega

end Reception
end Fish
