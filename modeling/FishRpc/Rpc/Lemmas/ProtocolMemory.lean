import FishRpc.Rpc.Lemmas.ProtocolManager
import FishRpc.Rpc.Lemmas.ProtocolRecovery

/-!
This module contains what `create` makes of the memory that nobody has written: that of a new message
and that next to the view and to `msgStr`. As long as a call reads received bytes only, that memory
decides nothing, so two messages that have received the same bytes stay the same up to it.
-/

namespace Fish
namespace Protocol

-- the byte at the offset of `totalLength_`
def lengthByte (head : List Byte) : Nat := (head.getD 1 0).toNat

-- the header is in the view in full and its length leads into it
def HeadInside (head : List Byte) : Prop :=
  15 ≤ head.length ∧ 4 ≤ lengthByte head ∧ lengthByte head ≤ 15

-- the header is cut off, but its first bytes are in the view
def CutOff (least : Nat) (head : List Byte) : Prop :=
  least ≤ head.length ∧ head.length < lengthByte head

/--
The call reads received bytes only. Of a header that is cut off just the first `least` bytes have to
be in the view.
-/
def ReadsInside (least : Nat) (p : Protocol) (view : List Byte) : Prop :=
  15 ≤ view.length →
    (p.handleState = .free → ∀ idx ∈ view.findIdx? (· = dfMagic),
      HeadInside (view.drop idx) ∨ CutOff least (view.drop idx)) ∧
    (p.handleState = .waitContent → 4 ≤ p.totalLength.toNat ∧ p.totalLength.toNat ≤ 15)

instance (head : List Byte) : Decidable (HeadInside head) :=
  inferInstanceAs (Decidable (_ ∧ _))

instance (least : Nat) (head : List Byte) : Decidable (CutOff least head) :=
  inferInstanceAs (Decidable (_ ∧ _))

instance (least : Nat) (p : Protocol) (view : List Byte) : Decidable (ReadsInside least p view) :=
  inferInstanceAs (Decidable (_ → _ ∧ _))

-- the bytes of `msgStr` that have been written
def Written (least : Nat) : RpcState → Nat → Prop
  | .free, i => i < 4 ∨ i = 6
  | .waitContent, i => i < 15
  | .lack, i => i < least
  | .ready, _ => True
  | .working, _ => True

/--
Two messages that agree in all that has been written.
-/
structure Alike (least : Nat) (p q : Protocol) : Prop where
  state : p.handleState = q.handleState
  content : p.content = q.content
  msg : ∀ i : Fin 16, Written least p.handleState i → p.msg.msgStr i = q.msg.msgStr i
  fresh : p.handleState = .free → p.totalLength = dfHeadLength

variable {least : Nat} {p q : Protocol}

theorem alike_refl (h : p.handleState = .free → p.totalLength = dfHeadLength) : Alike least p p :=
  ⟨rfl, rfl, fun _ _ => rfl, h⟩

theorem totalLength_eq (p : Protocol) : p.totalLength = p.msg.msgStr 1 :=
  HeadMsg.field_one p.msg 1 (by omega)

-- the constructor writes the first four bytes and `sFormat_`
theorem new_msgStr (raw : HeadMsg) {i : Fin 16} (h : i.val < 4 ∨ i.val = 6)
    : (new raw).msg.msgStr i = (new ⟨fun _ => 0⟩).msg.msgStr i := by
  simp only [new, setSFormat, setVersion, setHeadLength, setTotalLength, setMagic, setField,
    HeadMsg.setField, HeadMsg.overwrite]
  split
  . rfl
  split
  . rfl
  split
  . rfl
  split
  . rfl
  split
  . rfl
  . omega

theorem alike_new (raw raw' : HeadMsg) : Alike least (new raw) (new raw') where
  state := rfl
  content := rfl
  msg _ hi := (new_msgStr raw hi).trans (new_msgStr raw' hi).symm
  fresh _ := new_totalLength raw

theorem Alike.symm (h : Alike least p q) : Alike least q p where
  state := h.state.symm
  content := h.content.symm
  msg i hi := by
    rw [← h.state] at hi
    exact (h.msg i hi).symm
  fresh hq := by
    have hp := h.state.trans hq
    rw [totalLength_eq, ← h.msg 1 (by rw [hp]; exact Or.inl (by decide)), ← totalLength_eq]
    exact h.fresh hp

theorem Alike.eq_of_ready (h : Alike least p q) (hp : p.handleState = .ready) : p = q := by
  have hmsg : p.msg.msgStr = q.msg.msgStr := by
    funext i
    apply h.msg
    rw [hp]
    trivial
  rcases p with ⟨⟨msgStr⟩, content, handleState⟩
  rcases q with ⟨⟨msgStr'⟩, content', handleState'⟩
  simp only [mk.injEq, HeadMsg.mk.injEq]
  exact ⟨hmsg, h.content, h.state⟩

/-! ### Headers -/

theorem copyHead_inside (p : Protocol) {head : List Byte} (mem : Memory)
    (htotal : p.totalLength = dfHeadLength) {i : Fin 16} (hi : i.val < 15)
    (hlen : i.val < head.length) : (p.copyHead head mem).msg.msgStr i = head.getD i 0 := by
  rw [copyHead_msgStr p head mem (by rw [htotal]; exact hi)]
  rw [List.getD_eq_getElem _ _ hlen, List.getD_eq_getElem _ _ hlen]

theorem copyHead_lengthByte (p : Protocol) {head : List Byte} (mem : Memory)
    (htotal : p.totalLength = dfHeadLength) (hlen : 1 < head.length)
    : (p.copyHead head mem).totalLength.toNat = lengthByte head := by
  rw [totalLength_eq, copyHead_inside p mem htotal (by decide) hlen]
  rfl

theorem Alike.createFree (h : Alike least p q) (hp : p.handleState = .free) {view : List Byte}
    {mem mem' : Memory} (hleast : 2 ≤ least ∧ least ≤ 15) (hlen : 15 ≤ view.length)
    (hinside : ReadsInside least p view)
    : (p.createFree view mem).1 = (q.createFree view mem').1 ∧
        Alike least (p.createFree view mem).2 (q.createFree view mem').2 := by
  have htotal := h.fresh hp
  have htotal' := h.symm.fresh (h.state ▸ hp)
  have hhead := (hinside hlen).1 hp
  unfold Protocol.createFree
  cases hidx : view.findIdx? (· = dfMagic) with
  | none => exact ⟨rfl, h⟩
  | some idx =>
    have hhead := hhead idx hidx
    simp only
    generalize view.drop idx = head at hhead ⊢
    have htwo : 1 < head.length := by
      rcases hhead with hhead | hhead
      . have := hhead.1
        omega
      . have := hhead.1
        omega
    have hbytes : ∀ i : Fin 16, i.val < 15 → i.val < head.length →
        (p.copyHead head mem).msg.msgStr i = (q.copyHead head mem').msg.msgStr i := by
      intro i hi hilen
      rw [copyHead_inside p mem htotal hi hilen, copyHead_inside q mem' htotal' hi hilen]
    simp only [copyHead_lengthByte p mem htotal htwo, copyHead_lengthByte q mem' htotal' htwo]
    rcases hhead with ⟨hfull, _, hle⟩ | ⟨hleast', hcut⟩
    . rw [if_neg (by omega), if_neg (by omega)]
      refine ⟨rfl, rfl, h.content, ?_, nofun⟩
      intro i hi
      exact hbytes i hi (by have : i.val < 15 := hi; omega)
    . rw [if_pos hcut, if_pos hcut]
      refine ⟨rfl, rfl, h.content, ?_, nofun⟩
      intro i hi
      have hlt : i.val < least := hi
      exact hbytes i (by omega) (by omega)

/-! ### Contents -/

theorem announced_eq_of_msgStr {mem mem' : Memory}
    (hmsg : ∀ i : Fin 16, i.val < 15 → p.msg.msgStr i = q.msg.msgStr i)
    (hinside : 4 ≤ p.totalLength.toNat ∧ p.totalLength.toNat ≤ 15)
    : p.announced mem = q.announced mem' := by
  have htotal : q.totalLength = p.totalLength := by
    rw [totalLength_eq, totalLength_eq, hmsg 1 (by decide)]
  unfold announced
  rw [htotal]
  apply List.foldl_ext
  intro cl k hk
  have hk := List.mem_range.mp hk
  have hrange : 0 ≤ (p.totalLength.toNat : Int) - 4 + k ∧ (p.totalLength.toNat : Int) - 4 + k < 16 := by
    omega
  simp only [msgStrAt]
  rw [dif_pos hrange, dif_pos hrange, hmsg]
  show ((p.totalLength.toNat : Int) - 4 + k).toNat < 15
  omega

theorem setContentLength_congr (v : BitVec 32)
    (hmsg : ∀ i : Fin 16, i.val < 15 → p.msg.msgStr i = q.msg.msgStr i)
    : (p.setContentLength v).msg = (q.setContentLength v).msg := by
  show HeadMsg.mk _ = HeadMsg.mk _
  congr 1
  funext i
  split
  . rfl
  . rename_i hout
    exact hmsg i (by omega)

theorem Alike.createWaitContent (h : Alike least p q) (hp : p.handleState = .waitContent)
    {view : List Byte} {mem mem' : Memory}
    (hinside : 4 ≤ p.totalLength.toNat ∧ p.totalLength.toNat ≤ 15)
    : (p.createWaitContent view mem).1 = (q.createWaitContent view mem').1 ∧
        Alike least (p.createWaitContent view mem).2 (q.createWaitContent view mem').2 := by
  have hmsg : ∀ i : Fin 16, i.val < 15 → p.msg.msgStr i = q.msg.msgStr i := by
    intro i hi
    apply h.msg
    rw [hp]
    exact hi
  have hannounced : q.announced mem' = p.announced mem := (announced_eq_of_msgStr hmsg hinside).symm
  rw [createWaitContent_eq, createWaitContent_eq]
  unfold contentLengthOf
  rw [hannounced, ← h.content, setContentLength_congr _ hmsg]
  refine ⟨rfl, alike_refl ?_⟩
  simp only
  split
  . nofun
  . nofun

/--
A call that reads received bytes only reports the same for messages that are alike, and leaves
them alike, whatever the rest of the memory holds.
-/
theorem Alike.create (h : Alike least p q) {view : List Byte} (mem mem' : Memory)
    (hleast : 2 ≤ least ∧ least ≤ 15) (hinside : ReadsInside least p view)
    : (p.create view mem).1 = (q.create view mem').1 ∧
        Alike least (p.create view mem).2 (q.create view mem').2 := by
  by_cases hlen : 15 ≤ view.length
  . rw [create_long p mem hlen, create_long q mem' hlen]
    cases hp : p.handleState with
    | free =>
      rw [← h.state, hp]
      exact h.createFree hp hleast hlen hinside
    | waitContent =>
      rw [← h.state, hp]
      exact h.createWaitContent hp ((hinside hlen).2 hp)
    | lack =>
      rw [← h.state, hp]
      exact ⟨rfl, h⟩
    | ready =>
      rw [← h.state, hp]
      exact ⟨rfl, h⟩
    | working =>
      rw [← h.state, hp]
      exact ⟨rfl, h⟩
  . rw [create_short p mem (by omega), create_short q mem' (by omega)]
    exact ⟨rfl, h⟩

end Protocol

namespace ProtocolManager

-- all messages of the table are such that only `create` has worked on them
def Started (m : ProtocolManager) : Prop :=
  ∀ fd p, m.undoProtols fd = some p → ∃ raw, Protocol.Parsing raw p

variable {m : ProtocolManager}

theorem Started.current (h : m.Started) (fd : Int) (raw : HeadMsg)
    : ∃ raw', Protocol.Parsing raw' (m.current fd raw) := by
  cases hfound : m.undoProtols fd with
  | none =>
    rw [current_of_none raw hfound]
    exact ⟨raw, Protocol.parsing_new raw⟩
  | some p =>
    rw [current_of_some raw hfound]
    exact h fd p hfound

theorem Started.readMes (h : m.Started) (fd : Int) (readBuf : Buffer) (raw : HeadMsg)
    (around : Int → Byte) : (m.readMes fd readBuf raw around).2.1.Started := by
  intro fd' p hp
  rw [readMes_eq] at hp
  simp only at hp
  by_cases heq : fd' = fd
  . subst heq
    rw [Function.update_self] at hp
    split at hp
    . cases hp
    . cases hp
      rcases h.current fd' raw with ⟨raw', hparsing⟩
      exact ⟨raw', Protocol.parsing_create hparsing _ _⟩
  . rw [Function.update_of_ne heq] at hp
    exact h fd' p hp

theorem Started.alike_refl {least : Nat} (h : m.Started) {fd : Int} {p : Protocol}
    (hp : m.undoProtols fd = some p) : Protocol.Alike least p p := by
  rcases h fd p hp with ⟨raw, hparsing⟩
  apply Protocol.alike_refl
  intro hfree
  rw [hparsing.1 hfree]
  exact Protocol.new_totalLength raw

end ProtocolManager
end Fish
