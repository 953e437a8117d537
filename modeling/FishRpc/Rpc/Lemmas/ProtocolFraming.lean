import FishRpc.Lib.Framing
import FishRpc.Rpc.Lemmas.ProtocolRoundTrip

/-!
This module contains the streams of messages that `result` writes. `result` copies the first
`totalLength_` bytes of the header. If these hold the id and the whole length of the content, the
messages can be told apart again. `contentLength_` is at offset 12 and the constructor sets
`totalLength_` to 15, so its last byte is not sent.
-/

namespace Fish
namespace Protocol

open LittleEndian
open Framing (Decodable Delimits)

-- a message together with the memory around its header
structure Sent where
  message : Protocol
  mem : Memory

def Sent.wire (s : Sent) : List Byte := s.message.result s.mem

def Sent.Same (s s' : Sent) : Prop := SameMessage s.message s'.message

structure Built (p : Protocol) : Prop where
  built : ∃ (q : Protocol) (content : List Byte),
    q.contentLength = 0 ∧ content.length < 2 ^ 32 ∧ p = q.setContent content

-- the bytes that are sent hold the id, and the length of the content fits into what follows it
def Carried (p : Protocol) : Prop :=
  12 ≤ p.totalLength.toNat ∧ p.content.length < 256 ^ (p.totalLength.toNat - 12)

theorem Built.contentLength {p : Protocol} (h : Built p)
    : p.content.length < 2 ^ 32 ∧ p.contentLength.toNat = p.content.length := by
  rcases h.built with ⟨q, content, hzero, hlt, rfl⟩
  refine ⟨hlt, ?_⟩
  have hfield : (q.setContent content).contentLength = 0 + BitVec.ofNat 32 content.length := by
    rw [← hzero]
    apply contentLength_setContentLength
  have hcontent : (q.setContent content).content = content := rfl
  rw [hfield]
  rw [hcontent]
  simpa using hlt

/-! ### One frame -/

theorem length_result (p : Protocol) (mem : Memory)
    : (p.result mem).length = p.totalLength.toNat + p.content.length := by
  simp [result]

theorem drop_result (p : Protocol) (mem : Memory)
    : (p.result mem).drop p.totalLength.toNat = p.content := by
  unfold result
  apply List.drop_left'
  simp

theorem getElem?_result (p : Protocol) (mem : Memory) (rest : List Byte) {i : Fin 16}
    (hi : i.val < p.totalLength.toNat)
    : (p.result mem ++ rest)[i.val]? = some (p.msg.msgStr i) := by
  have hrange : (0 : Int) ≤ i.val ∧ (i.val : Int) < 16 := by omega
  have hlen : i.val < (p.result mem).length := by
    rw [length_result]
    omega
  rw [List.getElem?_append_left hlen]
  unfold result
  rw [List.getElem?_append_left (by simpa using hi)]
  simp only [List.getElem?_map, List.getElem?_range hi, Option.map_some, Option.some.injEq]
  unfold msgStrAt
  rw [dif_pos hrange]
  rfl

theorem msgStr_eq_of_wire {s s' : Sent} {rest rest' : List Byte}
    (h : s.wire ++ rest = s'.wire ++ rest') {i : Fin 16}
    (hi : i.val < s.message.totalLength.toNat) (hi' : i.val < s'.message.totalLength.toNat)
    : s.message.msg.msgStr i = s'.message.msg.msgStr i := by
  have hget := getElem?_result s.message s.mem rest hi
  have hget' := getElem?_result s'.message s'.mem rest' hi'
  unfold Sent.wire at h
  rw [h] at hget
  rw [hget] at hget'
  apply Option.some.inj hget'

theorem totalLength_eq_of_wire {s s' : Sent} {rest rest' : List Byte}
    (h : s.wire ++ rest = s'.wire ++ rest') (hs : 12 ≤ s.message.totalLength.toNat)
    (hs' : 12 ≤ s'.message.totalLength.toNat) : s.message.totalLength = s'.message.totalLength := by
  have hbyte : s.message.msg.msgStr 1 = s'.message.msg.msgStr 1 := by
    apply msgStr_eq_of_wire h
    . show 1 < s.message.totalLength.toNat
      omega
    . show 1 < s'.message.totalLength.toNat
      omega
  unfold totalLength
  rw [HeadMsg.field_one _ 1 (by omega)]
  rw [HeadMsg.field_one _ 1 (by omega)]
  apply hbyte

-- the length of a content that is carried can be read from the bytes that are sent
theorem length_content_eq {p : Protocol} (hbuilt : Built p) {k : Nat} (hk : k ≤ 4)
    (hlt : p.content.length < 256 ^ k) : p.content.length = ofBytes (p.msg.bytes 12 k) := by
  have hlength := hbuilt.contentLength
  have htake : p.msg.bytes 12 k = (p.msg.bytes 12 4).take k := by
    unfold HeadMsg.bytes
    rw [List.take_take]
    rw [Nat.min_eq_left hk]
  have hdvd : 256 ^ k ∣ 2 ^ 32 := Nat.pow_dvd_pow 256 hk
  have hfield : p.contentLength.toNat = ofBytes (p.msg.bytes 12 4) % 2 ^ 32 := by
    unfold contentLength HeadMsg.field
    rw [BitVec.toNat_ofNat]
  calc
    p.content.length = p.content.length % 256 ^ k := (Nat.mod_eq_of_lt hlt).symm
    _ = ofBytes (p.msg.bytes 12 4) % 2 ^ 32 % 256 ^ k := by rw [← hlength.2, hfield]
    _ = ofBytes (p.msg.bytes 12 4) % 256 ^ k := Nat.mod_mod_of_dvd _ hdvd
    _ = ofBytes (p.msg.bytes 12 k) := by rw [htake, ofBytes_take]

section

variable {s s' : Sent} {rest rest' : List Byte} (h : s.wire ++ rest = s'.wire ++ rest')
  (hs : Carried s.message) (hs' : Carried s'.message)

include h hs hs'

theorem bytes_eq_of_wire {off n : Nat} (hn : off + n ≤ 16)
    (hoff : off + n ≤ s.message.totalLength.toNat)
    : s.message.msg.bytes off n = s'.message.msg.bytes off n := by
  have htotal := totalLength_eq_of_wire h hs.1 hs'.1
  apply HeadMsg.bytes_congr hn
  intro i _ hi
  apply msgStr_eq_of_wire h
  . omega
  . rw [← htotal]
    omega

theorem field_eq_of_wire {off n : Nat} (hn : off + n ≤ 12)
    : s.message.msg.field off n = s'.message.msg.field off n := by
  have htwelve := hs.1
  unfold HeadMsg.field
  rw [bytes_eq_of_wire h hs hs' (by omega) (by omega)]

theorem length_content_eq_of_wire (hbuilt : Built s.message) (hbuilt' : Built s'.message)
    : s.message.content.length = s'.message.content.length := by
  have htotal := totalLength_eq_of_wire h hs.1 hs'.1
  have htwelve := hs.1
  have hcap : ∀ p : Protocol, Built p → Carried p →
      p.content.length < 256 ^ min (p.totalLength.toNat - 12) 4 := by
    intro p hp hc
    rcases Nat.le_total (p.totalLength.toNat - 12) 4 with hle | hle
    . rw [Nat.min_eq_left hle]
      apply hc.2
    . rw [Nat.min_eq_right hle]
      apply hp.contentLength.1
  rw [length_content_eq hbuilt (Nat.min_le_right _ _) (hcap _ hbuilt hs)]
  rw [length_content_eq hbuilt' (Nat.min_le_right _ _) (hcap _ hbuilt' hs')]
  rw [← htotal]
  rw [bytes_eq_of_wire h hs hs' (by omega) (by omega)]

end

theorem delimits_carried
    : Delimits Sent.wire (fun s => Built s.message ∧ Carried s.message) Sent.Same := by
  constructor
  . intro s hs hnil
    have hlen := length_result s.message s.mem
    have htwelve := hs.2.1
    unfold Sent.wire at hnil
    rw [hnil] at hlen
    simp only [List.length_nil] at hlen
    omega
  . intro s s' rest rest' hs hs' h
    have htotal := totalLength_eq_of_wire h hs.2.1 hs'.2.1
    have hcontent := length_content_eq_of_wire h hs.2 hs'.2 hs.1 hs'.1
    have hlen : s.wire.length = s'.wire.length := by
      unfold Sent.wire
      rw [length_result]
      rw [length_result]
      rw [htotal, hcontent]
    have hframes := List.append_inj h hlen
    refine ⟨⟨?_, ?_, ?_, ?_⟩, hframes.2⟩
    . exact (field_eq_of_wire h hs.2 hs'.2 (by omega)).symm
    . exact (field_eq_of_wire h hs.2 hs'.2 (by omega)).symm
    . exact (field_eq_of_wire h hs.2 hs'.2 (by omega)).symm
    . rw [← drop_result s.message s.mem]
      rw [← drop_result s'.message s'.mem]
      rw [htotal]
      apply congrArg _ hframes.1.symm

/-! ### The length that is cut off -/

theorem built_packet {raw : HeadMsg} (hraw : (new raw).contentLength = 0) (type : BitVec 16)
    (id : BitVec 32) {content : List Byte} (h : content.length < 2 ^ 32)
    : Built (packet raw type id content) := by
  have hzero : (((new raw).setMsgType type).setMsgId id).contentLength = 0 := by
    rw [← hraw]
    simp (disch := omega) only [setMsgType, setMsgId, setField, contentLength,
      HeadMsg.field_setField_of_disjoint]
  exact ⟨_, content, hzero, h, rfl⟩

theorem sameHead_setContent {p : Protocol} (hp : p.contentLength = 0) {content content' : List Byte}
    (h : content.length % 2 ^ 24 = content'.length % 2 ^ 24)
    : SameHead (p.setContent content) (p.setContent content') := by
  intro i hi
  simp only [setContent, setContentLength, setField, HeadMsg.setField, HeadMsg.overwrite]
  split
  . rw [hp]
    rw [getD_toBytes _ (by omega)]
    rw [getD_toBytes _ (by omega)]
    apply BitVec.eq_of_toNat_eq
    have hlen (bytes : List Byte)
        : ((0 : BitVec 32) + BitVec.ofNat 32 bytes.length).toNat = bytes.length % 2 ^ 32 := by
      simp
    rw [hlen, hlen]
    have hcases : i.val - 12 = 0 ∨ i.val - 12 = 1 ∨ i.val - 12 = 2 := by omega
    simp only [BitVec.toNat_ofNat]
    rcases hcases with hi | hi | hi
    . rw [hi]
      omega
    . rw [hi]
      omega
    . rw [hi]
      omega
  . rfl

def bound : Nat := 2 ^ 24

-- the second message is also the content of the first, whose length is sent as 0
def nested (raw : HeadMsg) : Protocol := packet raw 1 7 (List.replicate (bound - 15) 0)

def outer (raw : HeadMsg) (mem : Memory) : Protocol := packet raw 1 7 ((nested raw).result mem)

theorem length_result_nested (raw : HeadMsg) (mem : Memory)
    : ((nested raw).result mem).length = bound := by
  have htotal : (nested raw).totalLength.toNat = 15 := by
    unfold nested
    rw [packet_totalLength]
    rfl
  have hcontent : (nested raw).content.length = bound - 15 := List.length_replicate
  rw [length_result]
  rw [htotal, hcontent]
  rfl

theorem wire_collision {raw : HeadMsg} (hraw : (new raw).contentLength = 0) (mem : Memory)
    : [⟨outer raw mem, mem⟩].flatMap Sent.wire
        =
      [⟨packet raw 1 7 [], mem⟩, ⟨nested raw, mem⟩].flatMap Sent.wire := by
  have hzero : (((new raw).setMsgType 1).setMsgId 7).contentLength = 0 := by
    rw [← hraw]
    simp (disch := omega) only [setMsgType, setMsgId, setField, contentLength,
      HeadMsg.field_setField_of_disjoint]
  have hmod : ([] : List Byte).length % 2 ^ 24 = ((nested raw).result mem).length % 2 ^ 24 := by
    rw [length_result_nested]
    rfl
  have hhead := sameHead_setContent hzero hmod
  have hbytes : (outer raw mem).msg.bytes 0 15 = (packet raw 1 7 []).msg.bytes 0 15 := by
    apply HeadMsg.bytes_congr (by omega)
    intro i _ hi
    apply hhead i (by omega)
  simp only [List.flatMap_cons, List.flatMap_nil, List.append_nil, Sent.wire]
  rw [result_eq _ mem (packet_totalLength _ _ _ _)]
  rw [result_eq (outer raw mem) mem (packet_totalLength _ _ _ _)]
  rw [hbytes]
  have hempty : (packet raw 1 7 []).content = [] := rfl
  have hcontent : (outer raw mem).content = (nested raw).result mem := rfl
  rw [hempty, hcontent]
  rw [List.append_nil]


-- the messages that leave the lengths of the header as the constructor sets them
def Below (N : Nat) (s : Sent) : Prop :=
  Built s.message ∧ s.message.totalLength = dfHeadLength ∧ s.message.content.length < N

theorem below_packet {raw : HeadMsg} (hraw : (new raw).contentLength = 0) (type : BitVec 16)
    (id : BitVec 32) {content : List Byte} (mem : Memory) {N : Nat} (hN : content.length < N)
    (h : content.length < 2 ^ 32) : Below N ⟨packet raw type id content, mem⟩ :=
  ⟨built_packet hraw type id h, packet_totalLength raw type id content, hN⟩

section

variable {raw : HeadMsg} (hraw : (new raw).contentLength = 0) (mem : Memory) {N : Nat}
  (hN : bound < N)

include hraw hN

theorem below_outer : Below N ⟨outer raw mem, mem⟩ := by
  apply below_packet hraw
  . rw [length_result_nested]
    apply hN
  . rw [length_result_nested]
    decide

theorem below_nested : Below N ⟨nested raw, mem⟩ := by
  apply below_packet hraw
  . rw [List.length_replicate]
    omega
  . rw [List.length_replicate]
    decide

theorem below_empty : Below N ⟨packet raw 1 7 [], mem⟩ := by
  apply below_packet hraw
  . rw [List.length_nil]
    omega
  . decide

include mem in
theorem not_decodable : ¬Decodable Sent.wire (Below N) Sent.Same := by
  intro hdecodable
  have hsame := hdecodable [⟨outer raw mem, mem⟩] [⟨packet raw 1 7 [], mem⟩, ⟨nested raw, mem⟩]
    (by simpa using below_outer hraw mem hN)
    (by simpa using And.intro (below_empty hraw mem hN) (below_nested hraw mem hN))
    (wire_collision hraw mem)
  have hlen : 1 = 2 := hsame.length_eq
  omega

end

/--
Streams of messages can be told apart if the bytes sent hold the whole length of each content. With
the header of the constructor that is the case exactly below 2^24 bytes.
-/
theorem decodable_iff (N : Nat)
    : Decodable Sent.wire (fun s => Built s.message ∧ Carried s.message) Sent.Same ∧
      (Decodable Sent.wire (Below N) Sent.Same ↔ N ≤ 2 ^ 24) := by
  refine ⟨delimits_carried.decodable, ?_⟩
  constructor
  . intro hdecodable
    apply Nat.le_of_not_lt
    intro hN
    have hraw : (new ⟨fun _ => 0⟩).contentLength = 0 := by decide
    apply not_decodable hraw ⟨fun _ => 0, fun _ => 0⟩ hN hdecodable
  . intro hN
    apply delimits_carried.decodable.mono
    intro s hs
    rcases hs with ⟨hbuilt, htotal, hlt⟩
    refine ⟨hbuilt, ?_⟩
    unfold Carried
    rw [htotal]
    have hcap : (256 : Nat) ^ (dfHeadLength.toNat - 12) = 2 ^ 24 := by decide
    rw [hcap]
    exact ⟨by decide, by omega⟩

theorem result_ambiguous
    : let raw : HeadMsg := ⟨fun _ => 0⟩
      let mem : Memory := ⟨fun _ => 0, fun _ => 0⟩
      let sent := [⟨outer raw mem, mem⟩]
      let sent' := [⟨packet raw 1 7 [], mem⟩, ⟨nested raw, mem⟩]
      (∀ s ∈ sent ++ sent', Below (2 ^ 32) s)
        ∧
      sent.flatMap Sent.wire = sent'.flatMap Sent.wire
        ∧
      ¬List.Forall₂ Sent.Same sent sent' := by
  intro raw mem sent sent'
  have hraw : (new raw).contentLength = 0 := by decide
  have hN : bound < 2 ^ 32 := by decide
  refine ⟨?_, wire_collision hraw mem, ?_⟩
  . intro s hs
    simp only [sent, sent', List.cons_append, List.nil_append, List.mem_cons, List.not_mem_nil,
      or_false] at hs
    rcases hs with rfl | rfl | rfl
    . apply below_outer hraw mem hN
    . apply below_empty hraw mem hN
    . apply below_nested hraw mem hN
  . intro hsame
    have hlen : 1 = 2 := hsame.length_eq
    omega

end Protocol
end Fish
