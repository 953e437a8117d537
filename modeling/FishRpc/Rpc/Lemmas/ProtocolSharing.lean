import FishRpc.Rpc.Lemmas.ProtocolFactory
import Mathlib.Data.List.Infix

/-!
This module contains callers that take packets from one factory and serialise them later, in any
interleaving. They all hold the same object, so what `result` writes is the id of the last `take`.
-/

namespace Fish
namespace Protocol

open LittleEndian

inductive PacketEvent (Caller : Type) where
  | take (caller : Caller) (raw : HeadMsg) (id : BitVec 32) (now : BitVec 64)
  | serialise (caller : Caller) (mem : Memory)

def PacketEvent.caller {Caller : Type} : PacketEvent Caller → Caller
  | take caller _ _ _ => caller
  | serialise caller _ => caller

-- `held` is the id that a caller asked for, `results` pairs it with the bytes
structure Sharing (Caller : Type) where
  statics : Statics
  held : Caller → Option (BitVec 32)
  results : List (BitVec 32 × List Byte)

namespace Sharing

variable {Caller : Type}

-- the id of the last `take`
def lastId (es : List (PacketEvent Caller)) : Option (BitVec 32) :=
  es.foldl
    (fun last e =>
      match e with
      | .take _ _ id _ => some id
      | .serialise _ _ => last)
    none

theorem lastId_take (es : List (PacketEvent Caller)) (caller : Caller) (raw : HeadMsg)
    (id : BitVec 32) (now : BitVec 64)
    : lastId (es ++ [.take caller raw id now]) = some id := by
  simp [lastId]

theorem lastId_serialise (es : List (PacketEvent Caller)) (caller : Caller) (mem : Memory)
    : lastId (es ++ [.serialise caller mem]) = lastId es := by
  simp [lastId]

def CarriesId (r : BitVec 32 × List Byte) : Prop :=
  BitVec.ofNat 32 (ofBytes ((r.2.drop 8).take 4)) = r.1

variable [DecidableEq Caller]

def start : Sharing Caller := ⟨.init, fun _ => none, []⟩

def step (f : Factory) (s : Sharing Caller) : PacketEvent Caller → Sharing Caller
  | .take caller raw id now =>
    { s with
      statics := s.statics.create f raw id now
      held := fun c => if c = caller then some id else s.held c }
  | .serialise caller mem =>
    match s.held caller, s.statics.object f with
    | some id, some p => { s with results := s.results ++ [(id, p.result mem)] }
    | _, _ => s

def share (f : Factory) (es : List (PacketEvent Caller)) : Sharing Caller :=
  es.foldl (step f) start

def ownId (caller : Caller) (es : List (PacketEvent Caller)) : Option (BitVec 32) :=
  lastId (es.filter fun e => e.caller = caller)

-- no `take` with another id comes between the `take` of a caller and its `serialise`
def Undisturbed (es : List (PacketEvent Caller)) : Prop :=
  ∀ pre caller mem, pre ++ [.serialise caller mem] <+: es →
    ∀ id, ownId caller pre = some id → lastId pre = some id

theorem share_concat (f : Factory) (es : List (PacketEvent Caller)) (e : PacketEvent Caller)
    : share f (es ++ [e]) = (share f es).step f e := by
  simp [share]

theorem ownId_take (es : List (PacketEvent Caller)) (c caller : Caller) (raw : HeadMsg)
    (id : BitVec 32) (now : BitVec 64)
    : ownId c (es ++ [.take caller raw id now]) = if c = caller then some id else ownId c es := by
  unfold ownId
  rw [List.filter_append]
  by_cases h : caller = c
  . simp [h, PacketEvent.caller, lastId]
  . simp [h, Ne.symm h, PacketEvent.caller]

theorem ownId_serialise (es : List (PacketEvent Caller)) (c caller : Caller) (mem : Memory)
    : ownId c (es ++ [.serialise caller mem]) = ownId c es := by
  unfold ownId
  rw [List.filter_append]
  by_cases h : caller = c
  . simp [h, PacketEvent.caller, lastId]
  . simp [h, PacketEvent.caller]

theorem carriesId_iff {p : Protocol} (htotal : p.totalLength = dfHeadLength) (id : BitVec 32)
    (mem : Memory) : CarriesId (id, p.result mem) ↔ p.getId = id := by
  have hbytes : ((p.result mem).drop 8).take 4 = p.msg.bytes 8 4 := by
    rw [result_eq p mem htotal]
    rw [List.drop_append_of_le_length (by rw [p.msg.length_head]; omega)]
    rw [List.take_append_of_le_length (by simp [p.msg.length_head])]
    unfold HeadMsg.bytes
    rw [List.drop_zero]
    rw [List.drop_take]
    rw [List.take_take]
    rfl
  unfold CarriesId
  simp only [hbytes]
  rfl

theorem lastId_of_ownId {c : Caller} {es : List (PacketEvent Caller)} {id : BitVec 32}
    (h : ownId c es = some id) : ∃ id', lastId es = some id' := by
  induction es using List.reverseRecOn with
  | nil => cases h
  | append_singleton es e ih =>
    cases e with
    | take caller raw id' now => exact ⟨id', lastId_take es caller raw id' now⟩
    | serialise caller mem =>
      rw [ownId_serialise] at h
      rw [lastId_serialise]
      apply ih h

theorem undisturbed_concat_iff (es : List (PacketEvent Caller)) (e : PacketEvent Caller)
    : Undisturbed (es ++ [e])
        ↔
      Undisturbed es ∧
      ∀ caller mem, e = .serialise caller mem →
        ∀ id, ownId caller es = some id → lastId es = some id := by
  unfold Undisturbed
  constructor
  . intro h
    constructor
    . intro pre caller mem hpre
      apply h pre caller mem (hpre.trans (List.prefix_append es [e]))
    . intro caller mem he
      apply h es caller mem
      rw [he]
  . rintro ⟨hes, hlast⟩ pre caller mem hpre
    rcases List.prefix_concat_iff.mp hpre with heq | hpre
    . rcases List.append_inj' heq rfl with ⟨rfl, he⟩
      apply hlast caller mem (List.singleton_inj.mp he).symm
    . apply hes pre caller mem hpre

/-! ### Runs -/

theorem packetOf_totalLength (s : Statics) (c : Statics.Call)
    : (s.packetOf c).totalLength = ((s.object c.factory).getD (.new c.raw)).totalLength := by
  unfold Statics.packetOf
  simp (disch := omega) only [setContent, setHeadMsg, setMsgType, setMsgId, setContentLength,
    Protocol.setField, totalLength, HeadMsg.field_setField_of_disjoint]

theorem packetOf_getId (s : Statics) (c : Statics.Call) : (s.packetOf c).getId = c.id := by
  unfold Statics.packetOf
  simp (disch := omega) only [setContent, setHeadMsg, setMsgType, setMsgId, setContentLength,
    Protocol.setField, getId, HeadMsg.field_setField_of_disjoint, HeadMsg.field_setField_same]

-- what all callers share after the events
structure Inv (f : Factory) (es : List (PacketEvent Caller)) : Prop where
  held : ∀ c, (share f es).held c = ownId c es
  object : ∀ p, (share f es).statics.object f = some p →
    p.totalLength = dfHeadLength ∧ lastId es = some p.getId
  taken : ∀ id, lastId es = some id → ((share f es).statics.object f).isSome

theorem inv_nil (f : Factory) : Inv f ([] : List (PacketEvent Caller)) where
  held _ := rfl
  object _ h := by cases h
  taken _ h := by cases h

theorem Inv.take {f : Factory} {es : List (PacketEvent Caller)} (h : Inv f es) (caller : Caller)
    (raw : HeadMsg) (id : BitVec 32) (now : BitVec 64)
    : Inv f (es ++ [.take caller raw id now]) := by
  let call : Statics.Call := ⟨f, raw, id, now⟩
  have hobject : (share f (es ++ [.take caller raw id now])).statics.object f
      = some ((share f es).statics.packetOf call) := by
    rw [share_concat]
    exact ((share f es).statics.call_object call f).trans (if_pos rfl)
  constructor
  . intro c
    rw [share_concat, ownId_take, ← h.held c]
    rfl
  . intro p hp
    rw [hobject] at hp
    cases hp
    rw [lastId_take, packetOf_getId, packetOf_totalLength]
    refine ⟨?_, rfl⟩
    show (((share f es).statics.object f).getD (.new raw)).totalLength = dfHeadLength
    cases hfound : (share f es).statics.object f with
    | none => exact new_totalLength raw
    | some p => exact (h.object p hfound).1
  . intro _ _
    rw [hobject]
    rfl

theorem step_serialise (f : Factory) (s : Sharing Caller) (caller : Caller) (mem : Memory)
    : (s.step f (.serialise caller mem)).statics = s.statics ∧
      (s.step f (.serialise caller mem)).held = s.held := by
  unfold step
  simp only
  split
  . exact ⟨rfl, rfl⟩
  . exact ⟨rfl, rfl⟩

theorem Inv.serialise {f : Factory} {es : List (PacketEvent Caller)} (h : Inv f es)
    (caller : Caller) (mem : Memory) : Inv f (es ++ [.serialise caller mem]) := by
  have hstep := step_serialise f (share f es) caller mem
  constructor
  . intro c
    rw [share_concat, hstep.2, ownId_serialise]
    apply h.held c
  . intro p hp
    rw [share_concat, hstep.1] at hp
    rw [lastId_serialise]
    apply h.object p hp
  . intro id hid
    rw [lastId_serialise] at hid
    rw [share_concat, hstep.1]
    apply h.taken id hid

theorem inv_share (f : Factory) (es : List (PacketEvent Caller)) : Inv f es := by
  induction es using List.reverseRecOn with
  | nil => exact inv_nil f
  | append_singleton es e ih =>
    cases e with
    | take caller raw id now => exact ih.take caller raw id now
    | serialise caller mem => exact ih.serialise caller mem

theorem Inv.results_serialise_iff {f : Factory} {es : List (PacketEvent Caller)} (h : Inv f es)
    (caller : Caller) (mem : Memory)
    : (∀ r ∈ (share f (es ++ [.serialise caller mem])).results, CarriesId r)
        ↔
      (∀ r ∈ (share f es).results, CarriesId r) ∧
      ∀ id, ownId caller es = some id → lastId es = some id := by
  rw [share_concat]
  unfold step
  simp only [h.held caller]
  cases hown : ownId caller es with
  | none => simp
  | some id =>
    rcases lastId_of_ownId hown with ⟨id', hid'⟩
    rcases Option.isSome_iff_exists.mp (h.taken id' hid') with ⟨p, hp⟩
    have hobject := h.object p hp
    simp only [hp, List.mem_append, List.mem_singleton, or_imp, forall_and, forall_eq,
      Option.some.injEq, forall_eq']
    rw [carriesId_iff hobject.1]
    rw [hobject.2]
    rw [Option.some.injEq]

/--
The bytes that callers of one factory obtain carry the ids they asked for exactly if no other `take`
with another id comes in between.
-/
theorem carriesId_iff_undisturbed (f : Factory) (es : List (PacketEvent Caller))
    : (∀ r ∈ (share f es).results, CarriesId r) ↔ Undisturbed es := by
  induction es using List.reverseRecOn with
  | nil =>
    refine iff_of_true (by simp [share, start]) ?_
    intro pre caller mem hpre
    simp at hpre
  | append_singleton es e ih =>
    rw [undisturbed_concat_iff]
    rw [← ih]
    cases e with
    | take caller raw id now =>
      rw [share_concat]
      simp [step]
    | serialise caller mem =>
      rw [(inv_share f es).results_serialise_iff caller mem]
      simp

-- two callers take a heart beat, then the first one serialises
theorem not_carriesId_disturbed
    : let raw : HeadMsg := ⟨fun _ => 0⟩
      ¬∀ r ∈ (share .heartBeat [.take false raw 1 0, .take true raw 2 0,
        .serialise false ⟨fun _ => 0, fun _ => 0⟩]).results, CarriesId r := by
  intro raw h
  have hfirst : _ = (1 : BitVec 32) := h _ (List.mem_singleton_self _)
  revert hfirst
  decide

end Sharing
end Protocol
end Fish
