import FishRpc.Rpc.Lemmas.Protocol

/-!
This module contains what happens to the bytes of a single message that are fed back to `create`.
The content has to be as long as a header to be looked at at all, and `create` does not count it as
read when it delivers the message.
-/

namespace Fish
namespace Protocol

def packet (raw : HeadMsg) (type : BitVec 16) (id : BitVec 32) (content : List Byte) : Protocol :=
  (((new raw).setMsgType type).setMsgId id).setContent content

def feed (q : Protocol) (bytes : List Byte) : List Memory → Protocol × List Byte
  | [] => (q, bytes)
  | mem :: mems =>
    let (size, q) := q.create bytes mem
    feed q (bytes.drop (max size 0).toNat) mems

def SameMessage (p q : Protocol) : Prop :=
  q.getType = p.getType ∧ q.getId = p.getId ∧ q.getSFormat = p.getSFormat ∧ q.content = p.content

def Delivered (p q : Protocol) (rest : List Byte) : Prop :=
  q.handleState = .ready ∧ SameMessage p q ∧ rest = []

theorem packet_getMagic (raw : HeadMsg) (type : BitVec 16) (id : BitVec 32) (content : List Byte)
    : (packet raw type id content).getMagic = dfMagic := by
  rw [← new_getMagic raw]
  simp (disch := omega) only [packet, setContent, setMsgType, setMsgId, setContentLength, setField,
    getMagic, HeadMsg.field_setField_of_disjoint]

theorem packet_totalLength (raw : HeadMsg) (type : BitVec 16) (id : BitVec 32)
    (content : List Byte) : (packet raw type id content).totalLength = dfHeadLength := by
  rw [← new_totalLength raw]
  simp (disch := omega) only [packet, setContent, setMsgType, setMsgId, setContentLength, setField,
    totalLength, HeadMsg.field_setField_of_disjoint]

-- the states of the receiver from the first call on, together with the bytes still in front of it
inductive Feeding (p : Protocol) (q : Protocol) (rest : List Byte) : Prop where
  | wait (hstate : q.handleState = .waitContent) (hcontent : q.content = [])
    (hrest : rest = p.content)
  | lack (hstate : q.handleState = .lack)
  | ready (hstate : q.handleState = .ready) (hlen : 15 ≤ rest.length)

theorem feeding_header {p q : Protocol} (hmagic : p.getMagic = dfMagic)
    (htotal : p.totalLength = dfHeadLength) (hstate : q.handleState = .free)
    (hq : q.totalLength = dfHeadLength) (hcontent : q.content = []) (mem mem' : Memory)
    : Feeding p (q.create (p.result mem) mem').2
        ((p.result mem).drop (max (q.create (p.result mem) mem').1 0).toNat) := by
  have hbytes := p.msg.length_head
  have hfit : ([] : List Byte).length + 15 < 2 ^ 31 := by decide
  rcases create_header hmagic htotal hstate hq List.not_mem_nil hfit p.content mem' with
    ⟨q', hcreate, hstate', hcontent', _⟩
  rw [List.nil_append] at hcreate
  rw [result_eq p mem htotal]
  rw [hcreate]
  apply Feeding.wait hstate'
  . rw [hcontent']
    exact hcontent
  . show List.drop 15 (p.msg.bytes 0 15 ++ p.content) = p.content
    rw [← hbytes]
    apply List.drop_left

theorem Feeding.create {p q : Protocol} {rest : List Byte} (h : Feeding p q rest) (mem : Memory)
    : Feeding p (q.create rest mem).2 (rest.drop (max (q.create rest mem).1 0).toNat) := by
  by_cases hlen : 15 ≤ rest.length
  . rw [create_long q mem hlen]
    cases h with
    | wait hstate hcontent hrest =>
      simp only [hstate]
      rw [createWaitContent_of_nil rest mem hcontent]
      simp only
      split
      . exact .lack rfl
      . exact .ready rfl hlen
    | lack hstate =>
      simp only [hstate]
      exact .lack hstate
    | ready hstate hready =>
      simp only [hstate]
      exact .ready hstate hready
  . rw [create_short q mem (by omega)]
    exact h

theorem Feeding.feed {p q : Protocol} {rest : List Byte} (h : Feeding p q rest)
    (mems : List Memory) : Feeding p (q.feed rest mems).1 (q.feed rest mems).2 := by
  induction mems generalizing q rest with
  | nil => exact h
  | cons mem mems ih => exact ih (h.create mem)

theorem Feeding.not_delivered {p q : Protocol} {rest : List Byte} (h : Feeding p q rest)
    : ¬Delivered p q rest := by
  intro hdelivered
  rcases hdelivered with ⟨hready, _, hnil⟩
  cases h with
  | wait hstate =>
    rw [hstate] at hready
    cases hready
  | lack hstate =>
    rw [hstate] at hready
    cases hready
  | ready _ hlen =>
    rw [hnil] at hlen
    cases hlen

theorem not_delivered_feed {p q : Protocol} (hmagic : p.getMagic = dfMagic)
    (htotal : p.totalLength = dfHeadLength) (hstate : q.handleState = .free)
    (hq : q.totalLength = dfHeadLength) (hcontent : q.content = []) (mem : Memory)
    (mems : List Memory)
    : ¬Delivered p (q.feed (p.result mem) mems).1 (q.feed (p.result mem) mems).2 := by
  cases mems with
  | nil =>
    intro hdelivered
    have hready : q.handleState = .ready := hdelivered.1
    rw [hstate] at hready
    cases hready
  | cons mem' mems =>
    have hfeeding := feeding_header hmagic htotal hstate hq hcontent mem mem'
    exact (hfeeding.feed mems).not_delivered

/--
No number of calls delivers the message that `result` has written and takes all of its bytes.
-/
theorem not_delivered_packet (raw raw' : HeadMsg) (type : BitVec 16) (id : BitVec 32)
    (content : List Byte) (mem : Memory) (mems : List Memory)
    : let p := packet raw type id content
      let fed := (new raw').feed (p.result mem) mems
      ¬Delivered p fed.1 fed.2 :=
  not_delivered_feed (packet_getMagic raw type id content) (packet_totalLength raw type id content)
    (new_handleState raw') (new_totalLength raw') (new_content raw') mem mems

theorem not_delivered_heartbeat
    : let raw : HeadMsg := ⟨fun _ => 0⟩
      let p := packet raw 1 7 (List.replicate 20 65)
      (new raw).contentLength = 0 ∧
      ∀ mem mems, ¬Delivered p ((new raw).feed (p.result mem) mems).1
        ((new raw).feed (p.result mem) mems).2 := by
  intro raw p
  refine ⟨by decide, ?_⟩
  intro mem mems
  exact not_delivered_feed (packet_getMagic _ _ _ _) (packet_totalLength _ _ _ _)
    (new_handleState raw) (new_totalLength raw) (new_content raw) mem mems

end Protocol
end Fish
