import FishRpc.Lib.Run
import FishRpc.Rpc.Lemmas.ProtocolExit

/-!
This module contains what is known of a message once `create` has made it `READY`. `Delivery` is the
message together with the header that the call out of `FREE` stored and the view of the call that
made it `READY`.
-/

namespace Fish
namespace Protocol

structure Delivery where
  protocol : Protocol
  left : Option HeadMsg
  readyView : Option (List Byte)

namespace Delivery

def start (raw : HeadMsg) : Delivery := ⟨.new raw, none, none⟩

def create (s : Delivery) (call : List Byte × Memory) : Delivery :=
  let protocol := (s.protocol.create call.1 call.2).2
  { protocol := protocol
    left :=
      if s.protocol.handleState = .free ∧ protocol.handleState ≠ .free then
        some protocol.msg
      else
        s.left
    readyView :=
      if s.protocol.handleState ≠ .ready ∧ protocol.handleState = .ready then
        some call.1
      else
        s.readyView }

def deliver (raw : HeadMsg) (calls : List (List Byte × Memory)) : Delivery :=
  calls.foldl create (start raw)

theorem create_of_unchanged {s : Delivery} {call : List Byte × Memory}
    (h : (s.protocol.create call.1 call.2).2 = s.protocol) : s.create call = s := by
  unfold create
  simp [h]

/--
The message is the announced one, complete and taken from a single view.
-/
structure Ready (s : Delivery) : Prop where
  magic : s.protocol.getMagic = dfMagic
  length : s.protocol.content.length = s.protocol.contentLength.toNat
  content : ∃ view, s.readyView = some view ∧ s.protocol.content <+: view
  header : ∃ m, s.left = some m ∧ s.protocol.msg.bytes 0 12 = m.bytes 0 12

structure Waiting (s : Delivery) : Prop where
  magic : s.protocol.getMagic = dfMagic
  content : s.protocol.content = []
  header : s.left = some s.protocol.msg

structure Inv (raw : HeadMsg) (s : Delivery) : Prop where
  free : s.protocol.handleState = .free → s.protocol = .new raw
  waiting : s.protocol.handleState = .waitContent → Waiting s
  ready : s.protocol.handleState = .ready → Ready s

theorem inv_start (raw : HeadMsg) : Inv raw (start raw) where
  free _ := rfl
  waiting h := by cases h
  ready h := by cases h

theorem Inv.of_lack (raw : HeadMsg) {s : Delivery} (h : s.protocol.handleState = .lack)
    : Inv raw s := by
  constructor <;> simp [h]

theorem getMagic_copyHead {p : Protocol} (h : 0 < p.totalLength.toNat) (rest : List Byte)
    (mem : Memory) : (p.copyHead (dfMagic :: rest) mem).getMagic = dfMagic := by
  unfold getMagic
  rw [HeadMsg.field_one _ 0 (by omega)]
  rw [copyHead_msgStr p _ mem h]
  rfl

theorem announcing_bytes (p : Protocol) (mem : Memory)
    : (p.announcing mem).bytes 0 12 = p.msg.bytes 0 12 :=
  HeadMsg.bytes_setField_of_disjoint p.msg _ (by omega) (Or.inl (by omega))

theorem announcing_getMagic (p : Protocol) (mem : Memory)
    : (p.announcing mem).field 0 1 = p.getMagic :=
  setContentLength_field p _ (by omega)

theorem announcing_contentLength (p : Protocol) (mem : Memory)
    : ((p.announcing mem).field 12 4).toNat = p.contentLengthOf mem :=
  congrArg BitVec.toNat (contentLength_setContentLength p _)

theorem Waiting.ready {s : Delivery} (h : Waiting s) {call : List Byte × Memory}
    (hstate : s.protocol.handleState = .waitContent)
    (hfit : s.protocol.contentLengthOf call.2 ≤ call.1.length)
    (hcreate : (s.protocol.create call.1 call.2).2
      = ⟨s.protocol.announcing call.2, call.1.take (s.protocol.contentLengthOf call.2), .ready⟩)
    : Ready (s.create call) := by
  have hleft : (s.create call).left = some s.protocol.msg := by
    unfold create
    simp [hstate, h.header]
  have hview : (s.create call).readyView = some call.1 := by
    unfold create
    simp [hstate, hcreate]
  have hprotocol : (s.create call).protocol = _ := hcreate
  constructor
  . rw [hprotocol]
    exact (announcing_getMagic _ _).trans h.magic
  . rw [hprotocol]
    exact (List.length_take_of_le hfit).trans (announcing_contentLength _ _).symm
  . refine ⟨call.1, hview, ?_⟩
    rw [hprotocol]
    apply List.take_prefix
  . refine ⟨s.protocol.msg, hleft, ?_⟩
    rw [hprotocol]
    apply announcing_bytes

theorem Inv.create {raw : HeadMsg} {s : Delivery} (h : Inv raw s) (call : List Byte × Memory)
    : Inv raw (s.create call) := by
  have hexit := create_exit s.protocol call.1 call.2
  generalize hcreated : s.protocol.create call.1 call.2 = created at hexit
  cases hexit with
  | short | noMagic | idle =>
    rw [create_of_unchanged (by rw [hcreated])]
    exact h
  | cutHeader | cutContent =>
    apply Inv.of_lack raw
    unfold Delivery.create
    rw [hcreated]
  | @header junk rest _ hstate =>
    have hnew := h.free hstate
    have htotal : 0 < s.protocol.totalLength.toNat := by
      rw [hnew]
      rw [new_totalLength]
      decide
    have hprotocol : (s.create call).protocol
        = { s.protocol.copyHead (dfMagic :: rest) call.2 with handleState := .waitContent } := by
      unfold Delivery.create
      rw [hcreated]
    have hleft : (s.create call).left = some (s.create call).protocol.msg := by
      unfold Delivery.create
      simp [hcreated, hstate]
    constructor
    . simp [hprotocol]
    . intro _
      refine ⟨?_, ?_, hleft⟩
      . rw [hprotocol]
        exact getMagic_copyHead htotal rest call.2
      . rw [hprotocol]
        show s.protocol.content = []
        rw [hnew]
        apply new_content
    . simp [hprotocol]
  | content _ hstate hfit =>
    have hwaiting := h.waiting hstate
    have htaken := taken_of_fit hwaiting.content hfit
    rw [hwaiting.content, List.length_nil, Nat.add_zero] at hfit
    have hcreate : (s.protocol.create call.1 call.2).2
        = ⟨s.protocol.announcing call.2, call.1.take (s.protocol.contentLengthOf call.2),
          .ready⟩ := by
      rw [hcreated]
      rw [htaken]
      rw [hwaiting.content]
      rfl
    have hready : (s.create call).protocol.handleState = .ready := congrArg handleState hcreate
    constructor
    . simp [hready]
    . simp [hready]
    . intro _
      apply hwaiting.ready hstate hfit hcreate

theorem inv_deliver (raw : HeadMsg) (calls : List (List Byte × Memory))
    : Inv raw (deliver raw calls) := by
  apply (Run.foldl create (start raw) calls).invariant (inv_start raw)
  intro s call s' hs _ hstep
  rw [hstep]
  apply hs.create call

/--
A delivered message is the one that the header announced, whatever views `create` is called with and
whatever lies around them.
-/
theorem ready_of_deliver (raw : HeadMsg) (calls : List (List Byte × Memory))
    (hready : (deliver raw calls).protocol.getState = .ready) : Ready (deliver raw calls) :=
  (inv_deliver raw calls).ready hready

-- a header that announces two bytes, and the call that finds them
def delivered : List (List Byte × Memory) :=
  let mem : Memory := ⟨fun _ => 0, fun _ => 0⟩
  [([0xcc, 15, 15, 1, 1, 0, 1, 0, 7, 0, 0, 48, 48, 48, 50], mem),
    (List.replicate 15 65, mem)]

theorem ready_of_deliver_delivered
    : let s := deliver ⟨fun _ => 0⟩ delivered
      s.protocol.getState = .ready ∧ Ready s := by
  have hready : (deliver ⟨fun _ => 0⟩ delivered).protocol.getState = .ready := by decide
  exact ⟨hready, ready_of_deliver _ _ hready⟩

end Delivery
end Protocol
end Fish
