import FishRpc.Rpc.Lemmas.ProtocolLength

/-!
This module contains the content length that a message announces in its header. `setContent` adds to
it while it replaces the content, and the object of a factory is never made anew, so it is right
once at most.
-/

namespace Fish
namespace Protocol

def Announced (p : Protocol) : Prop :=
  p.contentLength.toNat = p.content.length

theorem contentLength_setContent (p : Protocol) (content : List Byte)
    : (p.setContent content).contentLength.toNat
        =
      (p.contentLength.toNat + content.length) % 2 ^ 32 := by
  have hfield : (p.setContent content).contentLength
      = p.contentLength + BitVec.ofNat 32 content.length :=
    field_setField_same p _ (by omega)
  rw [hfield]
  simp only [BitVec.toNat_add, BitVec.toNat_ofNat]
  omega

theorem contentLength_eq_zero_iff (p : Protocol)
    : p.contentLength = 0 ↔ p.contentLength.toNat = 0 :=
  BitVec.toNat_inj.symm

theorem announced_setContent_iff (p : Protocol) (content : List Byte)
    : (p.setContent content).Announced ↔ p.contentLength = 0 ∧ content.length < 2 ^ 32 := by
  have hlt := p.contentLength.isLt
  have hcontent : (p.setContent content).content = content := rfl
  unfold Announced
  rw [contentLength_setContent]
  rw [hcontent]
  rw [contentLength_eq_zero_iff]
  omega

def Factory.msgType : Factory → MsgType
  | heartBeat => .hbeat
  | provider => .provider
  | cusmer => .consumer

namespace Statics

structure Call where
  factory : Factory
  raw : HeadMsg
  id : BitVec 32
  now : BitVec 64

def call (s : Statics) (c : Call) : Statics :=
  s.create c.factory c.raw c.id c.now

-- the message that a call works on and returns
def packetOf (s : Statics) (c : Call) : Protocol :=
  (((s.object c.factory).getD (.new c.raw)).setHeadMsg c.factory.msgType c.id).setContent
    (gettime c.now)

theorem call_object (s : Statics) (c : Call) (f : Factory)
    : (s.call c).object f = if f = c.factory then some (s.packetOf c) else s.object f := by
  unfold call create packetOf
  cases c.factory <;> rfl

theorem packetOf_announced_iff (s : Statics) (c : Call)
    : (s.packetOf c).Announced ↔ ((s.object c.factory).getD (.new c.raw)).contentLength = 0 := by
  have hhead (p : Protocol) (type : MsgType)
      : (p.setHeadMsg type c.id).contentLength = p.contentLength := by
    unfold setHeadMsg contentLength
    refine (field_setField_of_disjoint _ _ (by omega) (Or.inr (by omega))).trans ?_
    apply field_setField_of_disjoint _ _ (by omega) (Or.inr (by omega))
  have hlt : (gettime c.now).length < 2 ^ 32 := by
    unfold gettime
    rw [LittleEndian.length_toBytes]
    decide
  unfold packetOf
  rw [announced_setContent_iff]
  rw [hhead]
  exact and_iff_left hlt

theorem packetOf_length (s : Statics) (c : Call) : (s.packetOf c).content.length = 8 :=
  LittleEndian.length_toBytes 8 _

def AllAnnounced (s : Statics) : Prop :=
  ∀ f p, s.object f = some p → p.Announced

-- the object that the call works on is made by it, in memory that holds a zero there
def Makes (s : Statics) (c : Call) : Prop :=
  s.object c.factory = none ∧ c.raw.field 12 4 = 0

structure Inv (s : Statics) : Prop where
  announced : s.AllAnnounced
  length : ∀ f p, s.object f = some p → p.content.length = 8

theorem new_contentLength (raw : HeadMsg) : (new raw).contentLength = raw.field 12 4 := by
  simp (disch := omega) only [contentLength, new, setSFormat, setVersion, setHeadLength,
    setTotalLength, setMagic, Protocol.setField, HeadMsg.field_setField_of_disjoint]

theorem Inv.call_announced_iff {s : Statics} (h : Inv s) (c : Call)
    : (s.call c).AllAnnounced ↔ s.Makes c := by
  have hpacket := packetOf_announced_iff s c
  have hobject := call_object s c
  unfold Makes
  constructor
  . intro hall
    have hzero := hpacket.mp (hall c.factory _ (by rw [hobject, if_pos rfl]))
    cases hfound : s.object c.factory with
    | none =>
      rw [hfound, Option.getD_none, new_contentLength] at hzero
      exact ⟨rfl, hzero⟩
    | some p =>
      rw [hfound, Option.getD_some] at hzero
      have hannounced := h.announced c.factory p hfound
      have hlength := h.length c.factory p hfound
      unfold Announced at hannounced
      rw [(contentLength_eq_zero_iff p).mp hzero] at hannounced
      omega
  . rintro ⟨hnone, hraw⟩ f p hp
    rw [hobject] at hp
    split at hp
    . cases hp
      rw [hpacket]
      rw [hnone, Option.getD_none, new_contentLength]
      exact hraw
    . apply h.announced f p hp

theorem Inv.call {s : Statics} (h : Inv s) {c : Call} (hmakes : s.Makes c) : Inv (s.call c) where
  announced := (h.call_announced_iff c).mpr hmakes
  length f p hp := by
    rw [call_object] at hp
    split at hp
    . cases hp
      apply packetOf_length
    . apply h.length f p hp

theorem inv_init : Inv init where
  announced _ _ h := by cases h
  length _ _ h := by cases h

end Statics

def heartBeat (id : BitVec 32) : Statics.Call :=
  ⟨.heartBeat, ⟨fun _ => 0⟩, id, 0⟩

end Protocol
end Fish
