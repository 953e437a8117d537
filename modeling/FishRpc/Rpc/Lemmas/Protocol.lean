import FishRpc.Rpc.Impl.Protocol
import Mathlib.Data.List.Basic
import Mathlib.Data.List.GetD

/-!
This module contains what a single `Protocol::create` call does, and how the header that `result`
writes looks to the `create` of the receiving side.
-/

namespace Fish

open LittleEndian

namespace HeadMsg

@[simp]
theorem length_bytes (m : HeadMsg) {off n : Nat} (h : off + n ≤ 16)
    : (m.bytes off n).length = n := by
  simp only [bytes, List.length_take, List.length_drop, List.length_ofFn]
  omega

theorem length_head (m : HeadMsg) : (m.bytes 0 15).length = 15 :=
  m.length_bytes (by omega)

theorem getElem_bytes (m : HeadMsg) {off n i : Nat} (h : off + n ≤ 16) (hi : i < n)
    (hlt : i < (m.bytes off n).length)
    : (m.bytes off n)[i] = m.msgStr ⟨off + i, by omega⟩ := by
  simp only [bytes, List.getElem_take, List.getElem_drop, List.getElem_ofFn]

theorem bytes_congr {m m' : HeadMsg} {off n : Nat} (h : off + n ≤ 16)
    (heq : ∀ i : Fin 16, off ≤ i.val → i.val < off + n → m.msgStr i = m'.msgStr i)
    : m.bytes off n = m'.bytes off n := by
  apply List.ext_getElem
  . rw [length_bytes m h]
    rw [length_bytes m' h]
  . intro i hi hi'
    rw [length_bytes m h] at hi
    rw [getElem_bytes m h hi]
    rw [getElem_bytes m' h hi]
    apply heq
    . simp
    . simpa using hi

theorem field_congr {m m' : HeadMsg} {off n : Nat} (h : off + n ≤ 16)
    (heq : ∀ i : Fin 16, off ≤ i.val → i.val < off + n → m.msgStr i = m'.msgStr i)
    : m.field off n = m'.field off n := by
  unfold field
  rw [bytes_congr h heq]

theorem field_one (m : HeadMsg) (off : Nat) (h : off < 16)
    : m.field off 1 = m.msgStr ⟨off, h⟩ := by
  have hlen : (m.bytes off 1).length = 1 := m.length_bytes (by omega)
  have hbytes : m.bytes off 1 = [m.msgStr ⟨off, h⟩] := by
    apply List.ext_getElem
    . rw [hlen]
      rfl
    . intro k hk hk'
      rw [hlen] at hk
      have hzero : k = 0 := by omega
      subst hzero
      rw [getElem_bytes m (by omega) (by omega)]
      rfl
  unfold field
  rw [hbytes]
  simp [ofBytes]

theorem bytes_setField_of_disjoint (m : HeadMsg) {off n off' n' : Nat} (v : BitVec (8 * n))
    (h : off' + n' ≤ 16) (hdisjoint : off' + n' ≤ off ∨ off + n ≤ off')
    : (m.setField off n v).bytes off' n' = m.bytes off' n' := by
  apply bytes_congr h
  intro i hlo hhi
  unfold setField overwrite
  apply if_neg
  omega

theorem field_setField_of_disjoint (m : HeadMsg) {off n off' n' : Nat} (v : BitVec (8 * n))
    (h : off' + n' ≤ 16) (hdisjoint : off' + n' ≤ off ∨ off + n ≤ off')
    : (m.setField off n v).field off' n' = m.field off' n' := by
  unfold field
  rw [bytes_setField_of_disjoint m v h hdisjoint]

theorem bytes_setField_same (m : HeadMsg) {off n : Nat} (v : BitVec (8 * n)) (h : off + n ≤ 16)
    : (m.setField off n v).bytes off n = toBytes n v.toNat := by
  apply List.ext_getElem
  . rw [length_bytes _ h]
    rw [length_toBytes]
  . intro i hi hi'
    rw [length_bytes _ h] at hi
    rw [getElem_bytes _ h hi]
    simp [setField, overwrite, hi]

theorem field_setField_same (m : HeadMsg) {off n : Nat} (v : BitVec (8 * n)) (h : off + n ≤ 16)
    : (m.setField off n v).field off n = v := by
  have hlt : v.toNat < 256 ^ n := by
    have := v.isLt
    rwa [Nat.pow_mul] at this
  unfold field
  rw [bytes_setField_same m v h]
  rw [ofBytes_toBytes_of_lt hlt]
  simp

end HeadMsg

namespace Protocol

theorem new_handleState (raw : HeadMsg) : (new raw).handleState = .free := rfl

theorem new_content (raw : HeadMsg) : (new raw).content = [] := rfl

theorem new_getMagic (raw : HeadMsg) : (new raw).getMagic = dfMagic := by
  simp (disch := omega) only [getMagic, new, setSFormat, setVersion, setHeadLength, setTotalLength,
    setMagic, setField, HeadMsg.field_setField_of_disjoint, HeadMsg.field_setField_same]

theorem new_totalLength (raw : HeadMsg) : (new raw).totalLength = dfHeadLength := by
  simp (disch := omega) only [totalLength, new, setSFormat, setVersion, setHeadLength,
    setTotalLength, setField, HeadMsg.field_setField_of_disjoint, HeadMsg.field_setField_same]

theorem new_headLength (raw : HeadMsg) : (new raw).headLength = dfHeadLength := by
  simp (disch := omega) only [headLength, new, setSFormat, setVersion, setHeadLength, setField,
    HeadMsg.field_setField_of_disjoint, HeadMsg.field_setField_same]

/-! ### One call -/

theorem create_short (p : Protocol) {view : List Byte} (mem : Memory) (h : view.length < 15)
    : p.create view mem = (-1, p) := by
  unfold create
  apply if_pos h

theorem create_long (p : Protocol) {view : List Byte} (mem : Memory) (h : 15 ≤ view.length)
    : p.create view mem
        =
      match p.handleState with
      | .free => p.createFree view mem
      | .waitContent => p.createWaitContent view mem
      | _ => (0, p) := by
  unfold create
  rw [if_neg (show ¬view.length < dfHeadLength.toNat from Nat.not_lt.mpr h)]
  cases p.handleState with
  | free => rfl
  | waitContent => rfl
  | lack => rfl
  | ready => rfl
  | working => rfl

theorem create_stuck (p : Protocol) (view : List Byte) (mem : Memory)
    (hstate : p.handleState ≠ .free ∧ p.handleState ≠ .waitContent)
    : (p.create view mem).2 = p := by
  by_cases h : view.length < 15
  . rw [create_short p mem h]
  . rw [create_long p mem (by omega)]
    cases hp : p.handleState with
    | free => exact absurd hp hstate.1
    | waitContent => exact absurd hp hstate.2
    | lack => rfl
    | ready => rfl
    | working => rfl

def contentLengthOf (p : Protocol) (mem : Memory) : Nat :=
  (BitVec.ofInt 32 (p.announced mem)).toNat

theorem contentLength_setContentLength (p : Protocol) (v : BitVec 32)
    : (p.setContentLength v).contentLength = v := by
  simp (disch := omega) only [contentLength, setContentLength, setField,
    HeadMsg.field_setField_same]

@[simp]
theorem setContentLength_content (p : Protocol) (v : BitVec 32)
    : (p.setContentLength v).content = p.content := rfl

theorem setContentLength_field (p : Protocol) (v : BitVec 32) {off n : Nat} (h : off + n ≤ 12)
    : (p.setContentLength v).msg.field off n = p.msg.field off n := by
  simp (disch := omega) only [setContentLength, setField, HeadMsg.field_setField_of_disjoint]

theorem createWaitContent_eq (p : Protocol) (view : List Byte) (mem : Memory)
    : p.createWaitContent view mem
        =
      let n := p.contentLengthOf mem
      let content := p.content ++ view.take (subSize n p.content.length)
      let head := (p.setContentLength (BitVec.ofInt 32 (p.announced mem))).msg
      if view.length + p.content.length < n then
        (0, ⟨head, p.content ++ view, .lack⟩)
      else
        (sizeToInt (subSize n content.length), ⟨head, content, .ready⟩) := by
  have hlen := contentLength_setContentLength p (BitVec.ofInt 32 (p.announced mem))
  unfold contentLength at hlen
  unfold createWaitContent contentLengthOf contentLength
  simp only [hlen, setContentLength_content]

/--
The content is taken in one go and the call reports no byte of it as read.
-/
theorem createWaitContent_of_nil {p : Protocol} (view : List Byte) (mem : Memory)
    (hcontent : p.content = [])
    : p.createWaitContent view mem
        =
      let n := p.contentLengthOf mem
      let head := (p.setContentLength (BitVec.ofInt 32 (p.announced mem))).msg
      if view.length < n then (0, ⟨head, view, .lack⟩) else (0, ⟨head, view.take n, .ready⟩) := by
  have hlt : p.contentLengthOf mem < 2 ^ 32 := BitVec.isLt _
  rw [createWaitContent_eq]
  simp only [hcontent, List.length_nil, Nat.add_zero, List.nil_append]
  rw [subSize_of_le (Nat.zero_le _) (by omega)]
  rw [Nat.sub_zero]
  split
  . rfl
  . rw [List.length_take_of_le (by omega)]
    rw [subSize_self]
    rfl

theorem copyHead_msgStr (p : Protocol) (view : List Byte) (mem : Memory) {i : Fin 16}
    (hi : i.val < p.totalLength.toNat)
    : (p.copyHead view mem).msg.msgStr i = view.getD i (mem.past (i - view.length)) := by
  unfold copyHead HeadMsg.overwrite
  simp [hi]

theorem findIdx?_of_not_mem {view : List Byte} (h : dfMagic ∉ view)
    : view.findIdx? (· = dfMagic) = none := by
  rw [List.findIdx?_eq_none_iff]
  intro b hb
  simpa using fun hmagic : b = dfMagic => h (hmagic ▸ hb)

theorem findIdx?_magic {junk : List Byte} (rest : List Byte) (hjunk : dfMagic ∉ junk)
    : (junk ++ dfMagic :: rest).findIdx? (· = dfMagic) = some junk.length := by
  rw [List.findIdx?_append]
  rw [findIdx?_of_not_mem hjunk]
  simp [List.findIdx?_cons]

theorem createFree_none (p : Protocol) {view : List Byte} (mem : Memory) (h : dfMagic ∉ view)
    : p.createFree view mem = (-1, p) := by
  unfold createFree
  rw [findIdx?_of_not_mem h]

theorem createFree_some (p : Protocol) {junk : List Byte} (rest : List Byte) (mem : Memory)
    (hjunk : dfMagic ∉ junk)
    : p.createFree (junk ++ dfMagic :: rest) mem
        =
      let q := p.copyHead (dfMagic :: rest) mem
      if rest.length + 1 < q.totalLength.toNat then
        (sizeToInt (-1 * junk.length), { q with handleState := .lack })
      else
        (sizeToInt (junk.length + q.totalLength.toNat), { q with handleState := .waitContent }) := by
  unfold createFree
  rw [findIdx?_magic rest hjunk]
  simp only [List.drop_left, List.length_cons]

/-! ### The header that `result` writes -/

theorem result_eq (p : Protocol) (mem : Memory) (htotal : p.totalLength = dfHeadLength)
    : p.result mem = p.msg.bytes 0 15 ++ p.content := by
  unfold result
  rw [htotal]
  rfl

-- all bytes that are sent, the last byte of `contentLength_` is not among them
def SameHead (p q : Protocol) : Prop :=
  ∀ i : Fin 16, i.val < 15 → q.msg.msgStr i = p.msg.msgStr i

theorem SameHead.field {p q : Protocol} (h : SameHead p q) {off n : Nat} (hn : off + n ≤ 15)
    : q.msg.field off n = p.msg.field off n := by
  apply HeadMsg.field_congr (by omega)
  intro i _ hi
  apply h i (by omega)

theorem SameHead.msgStrAt {p q : Protocol} (h : SameHead p q) (mem mem' : Memory) {i : Int}
    (hlo : 0 ≤ i) (hhi : i < 15) : q.msgStrAt mem' i = p.msgStrAt mem i := by
  have hrange : 0 ≤ i ∧ i < 16 := by omega
  unfold Protocol.msgStrAt
  rw [dif_pos hrange]
  rw [dif_pos hrange]
  apply h
  show i.toNat < 15
  omega

theorem SameHead.announced {p q : Protocol} (h : SameHead p q) (mem mem' : Memory)
    (htotal : p.totalLength = dfHeadLength) : q.announced mem' = p.announced mem := by
  have htotal' : q.totalLength = dfHeadLength := (h.field (by omega)).trans htotal
  have htoNat : dfHeadLength.toNat = 15 := rfl
  have hat (k : Nat) (hk : k < 4)
      : q.msgStrAt mem' (((15 : Nat) : Int) - 4 + k) = p.msgStrAt mem (((15 : Nat) : Int) - 4 + k) :=
    h.msgStrAt mem mem' (by omega) (by omega)
  unfold Protocol.announced
  rw [htotal]
  rw [htotal']
  rw [htoNat]
  apply List.foldl_ext
  intro cl k hk
  rw [hat k (List.mem_range.mp hk)]

theorem SameHead.contentLengthOf {p q : Protocol} (h : SameHead p q) (mem mem' : Memory)
    (htotal : p.totalLength = dfHeadLength)
    : q.contentLengthOf mem' = p.contentLengthOf mem := by
  unfold Protocol.contentLengthOf
  rw [h.announced mem mem' htotal]

theorem bytes_eq_magic_cons (m : HeadMsg) (hmagic : m.field 0 1 = dfMagic)
    : ∃ tail, m.bytes 0 15 = dfMagic :: tail := by
  have hlen := m.length_head
  rw [HeadMsg.field_one m 0 (by omega)] at hmagic
  cases hbytes : m.bytes 0 15 with
  | nil =>
    rw [hbytes] at hlen
    cases hlen
  | cons b tail =>
    refine ⟨tail, ?_⟩
    have hhead := @HeadMsg.getElem_bytes m 0 15 0 (by omega) (by omega) (by omega)
    simp only [hbytes, List.getElem_cons_zero] at hhead
    rw [hhead]
    apply congrArg (· :: tail) hmagic

/--
A fresh message takes over a complete header and everything before it.
-/
theorem create_header {p q : Protocol} (hmagic : p.getMagic = dfMagic)
    (htotal : p.totalLength = dfHeadLength) (hstate : q.handleState = .free)
    (hq : q.totalLength = dfHeadLength) {junk : List Byte} (hjunk : dfMagic ∉ junk)
    (hlen : junk.length + 15 < 2 ^ 31) (rest : List Byte) (mem : Memory)
    : ∃ q',
        q.create (junk ++ p.msg.bytes 0 15 ++ rest) mem = (((junk.length + 15 : Nat) : Int), q') ∧
        q'.handleState = .waitContent ∧
        q'.content = q.content ∧
        SameHead p q' := by
  have hbytes := p.msg.length_head
  rcases bytes_eq_magic_cons p.msg hmagic with ⟨tail, htail⟩
  have hhead : SameHead p (q.copyHead (p.msg.bytes 0 15 ++ rest) mem) := by
    intro i hi
    rw [copyHead_msgStr q _ mem (by rw [hq]; exact hi)]
    rw [List.getD_append _ _ _ _ (by omega)]
    rw [List.getD_eq_getElem _ _ (by omega)]
    rw [HeadMsg.getElem_bytes _ (by omega) hi]
    congr
    omega
  have htotal' := (@SameHead.field _ _ hhead 1 1 (by omega)).trans htotal
  have hview : 15 ≤ (junk ++ p.msg.bytes 0 15 ++ rest).length := by
    simp only [List.length_append]
    omega
  rw [create_long q mem hview]
  simp only [hstate]
  rw [htail, List.append_assoc, List.cons_append]
  rw [createFree_some q (tail ++ rest) mem hjunk]
  rw [htail, List.cons_append] at hhead htotal'
  rw [htail] at hbytes
  simp only [List.length_cons] at hbytes
  have hfit : ¬(tail ++ rest).length + 1 < dfHeadLength.toNat := by
    rw [List.length_append]
    show ¬tail.length + rest.length + 1 < 15
    omega
  have hret : sizeToInt (junk.length + (dfHeadLength.toNat : Int)) = (junk.length + 15 : Nat) :=
    sizeToInt_of_lt hlen
  refine ⟨{ q.copyHead (dfMagic :: (tail ++ rest)) mem with handleState := .waitContent }, ?_, rfl,
    rfl, hhead⟩
  unfold totalLength
  simp only [htotal']
  rw [if_neg hfit]
  rw [hret]

end Protocol
end Fish
