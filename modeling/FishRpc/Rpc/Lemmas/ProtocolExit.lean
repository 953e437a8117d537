import FishRpc.Rpc.Lemmas.Protocol

/-!
This module contains the exits of `Protocol::create`, each with the branches that lead to it, what
is returned and what is left behind. Facts about a single call are proved exit by exit.
-/

namespace Fish
namespace Protocol

-- the length that the header at `idx` has once it is copied
def headerLength (p : Protocol) (view : List Byte) (mem : Memory) (idx : Nat) : Nat :=
  if 2 ≤ p.totalLength.toNat then
    ((view.drop idx).getD 1 (mem.past (1 - (view.drop idx).length))).toNat
  else
    p.totalLength.toNat

-- the bytes of the content that are in the view
def taken (p : Protocol) (view : List Byte) (mem : Memory) : Nat :=
  min (subSize (p.contentLengthOf mem) p.content.length) view.length

theorem taken_le (p : Protocol) (view : List Byte) (mem : Memory)
    : p.taken view mem ≤ view.length :=
  Nat.min_le_right _ _

def announcing (p : Protocol) (mem : Memory) : HeadMsg :=
  (p.setContentLength (BitVec.ofInt 32 (p.announced mem))).msg

/--
All exits of a call with what is returned and what is left behind.
-/
inductive Exit (p : Protocol) (view : List Byte) (mem : Memory) : Int × Protocol → Prop where
  | short (hlen : view.length < 15) : Exit p view mem (-1, p)
  | noMagic (hlen : 15 ≤ view.length) (hstate : p.handleState = .free) (hmagic : dfMagic ∉ view)
    : Exit p view mem (-1, p)
  | cutHeader {junk rest : List Byte} (hlen : 15 ≤ view.length) (hstate : p.handleState = .free)
    (hview : view = junk ++ dfMagic :: rest) (hjunk : dfMagic ∉ junk)
    (hcut : rest.length + 1 < p.headerLength view mem junk.length)
    : Exit p view mem
        (sizeToInt (-junk.length),
          { p.copyHead (dfMagic :: rest) mem with handleState := .lack })
  | header {junk rest : List Byte} (hlen : 15 ≤ view.length) (hstate : p.handleState = .free)
    (hview : view = junk ++ dfMagic :: rest) (hjunk : dfMagic ∉ junk)
    (hfit : p.headerLength view mem junk.length ≤ rest.length + 1)
    : Exit p view mem
        (sizeToInt ((junk.length + p.headerLength view mem junk.length : Nat)),
          { p.copyHead (dfMagic :: rest) mem with handleState := .waitContent })
  | cutContent (hlen : 15 ≤ view.length) (hstate : p.handleState = .waitContent)
    (hcut : view.length + p.content.length < p.contentLengthOf mem)
    : Exit p view mem (0, ⟨p.announcing mem, p.content ++ view, .lack⟩)
  | content (hlen : 15 ≤ view.length) (hstate : p.handleState = .waitContent)
    (hfit : p.contentLengthOf mem ≤ view.length + p.content.length)
    : Exit p view mem
        (sizeToInt (subSize (p.contentLengthOf mem) (p.content.length + p.taken view mem)),
          ⟨p.announcing mem, p.content ++ view.take (p.taken view mem), .ready⟩)
  | idle (hlen : 15 ≤ view.length) (hfree : p.handleState ≠ .free)
    (hwait : p.handleState ≠ .waitContent) : Exit p view mem (0, p)

theorem copyHead_totalLength (p : Protocol) (view : List Byte) (mem : Memory) (idx : Nat)
    : (p.copyHead (view.drop idx) mem).totalLength.toNat = p.headerLength view mem idx := by
  have hfield : ∀ q : Protocol, q.totalLength = q.msg.msgStr 1 :=
    fun q => HeadMsg.field_one q.msg 1 (by omega)
  unfold headerLength
  rw [hfield]
  split
  . next htwo =>
    rw [copyHead_msgStr p _ mem (by show 1 < _; omega)]
    rfl
  . next htwo =>
    rw [hfield p]
    congr 1
    unfold copyHead HeadMsg.overwrite
    apply if_neg
    show ¬(0 ≤ 1 ∧ 1 < 0 + p.totalLength.toNat)
    omega

theorem copyHead_magic (p : Protocol) {view junk rest : List Byte} (mem : Memory)
    (hview : view = junk ++ dfMagic :: rest)
    : (p.copyHead (dfMagic :: rest) mem).totalLength.toNat
        =
      p.headerLength view mem junk.length := by
  have hlength := copyHead_totalLength p view mem junk.length
  have hdrop : view.drop junk.length = dfMagic :: rest := by simp [hview]
  rwa [hdrop] at hlength

theorem createFree_exit (p : Protocol) {view : List Byte} (mem : Memory) (hlen : 15 ≤ view.length)
    (hstate : p.handleState = .free) : Exit p view mem (p.createFree view mem) := by
  by_cases hmagic : dfMagic ∈ view
  . rcases List.eq_append_cons_of_mem hmagic with ⟨junk, rest, hview, hjunk⟩
    have hlength := copyHead_magic p mem hview
    have hcreate := createFree_some p rest mem hjunk
    rw [← hview] at hcreate
    rw [hcreate]
    simp only [hlength]
    split
    . next hcut =>
      rw [Int.neg_one_mul]
      apply Exit.cutHeader hlen hstate hview hjunk hcut
    . next hfit =>
      rw [← Int.natCast_add]
      apply Exit.header hlen hstate hview hjunk (Nat.le_of_not_lt hfit)
  . rw [createFree_none p mem hmagic]
    apply Exit.noMagic hlen hstate hmagic

theorem createWaitContent_exit (p : Protocol) {view : List Byte} (mem : Memory)
    (hlen : 15 ≤ view.length) (hstate : p.handleState = .waitContent)
    : Exit p view mem (p.createWaitContent view mem) := by
  have htake : view.take (subSize (p.contentLengthOf mem) p.content.length)
      = view.take (p.taken view mem) := by
    apply List.take_eq_take_min
  rw [createWaitContent_eq]
  simp only
  split
  . next hcut => apply Exit.cutContent hlen hstate hcut
  . next hfit =>
    rw [htake]
    rw [List.length_append]
    rw [List.length_take_of_le (p.taken_le view mem)]
    apply Exit.content hlen hstate (Nat.le_of_not_lt hfit)

theorem create_exit (p : Protocol) (view : List Byte) (mem : Memory)
    : Exit p view mem (p.create view mem) := by
  by_cases hlen : 15 ≤ view.length
  . rw [create_long p mem hlen]
    cases hstate : p.handleState with
    | free => exact createFree_exit p mem hlen hstate
    | waitContent => exact createWaitContent_exit p mem hlen hstate
    | lack => exact Exit.idle hlen (by simp [hstate]) (by simp [hstate])
    | ready => exact Exit.idle hlen (by simp [hstate]) (by simp [hstate])
    | working => exact Exit.idle hlen (by simp [hstate]) (by simp [hstate])
  . rw [create_short p mem (Nat.lt_of_not_le hlen)]
    apply Exit.short (Nat.lt_of_not_le hlen)

/-! ### The bytes that are erased -/

-- what holds of a message that only `create` has worked on
def Unfilled (p : Protocol) : Prop :=
  p.handleState = .free ∨ p.handleState = .waitContent → p.content = []

theorem unfilled_new (raw : HeadMsg) : Unfilled (new raw) :=
  fun _ => new_content raw

theorem unfilled_create {p : Protocol} (h : Unfilled p) (view : List Byte) (mem : Memory)
    : Unfilled (p.create view mem).2 := by
  have hexit := create_exit p view mem
  generalize p.create view mem = created at hexit ⊢
  cases hexit with
  | short => exact h
  | noMagic => exact h
  | cutHeader => simp [Unfilled]
  | header _ hstate =>
    intro _
    apply h (Or.inl hstate)
  | cutContent => simp [Unfilled]
  | content => simp [Unfilled]
  | idle => exact h

theorem taken_of_fit {p : Protocol} (hcontent : p.content = []) {view : List Byte} {mem : Memory}
    (hfit : p.contentLengthOf mem ≤ view.length + p.content.length)
    : p.taken view mem = p.contentLengthOf mem := by
  have hlt : p.contentLengthOf mem < 2 ^ 32 := BitVec.isLt _
  unfold taken
  rw [hcontent, List.length_nil] at hfit ⊢
  rw [subSize_of_le (Nat.zero_le _) (by omega)]
  apply Nat.min_eq_left hfit

/--
A message that only `create` has worked on never reports more bytes as read than it was shown.
-/
theorem create_le {p : Protocol} (h : Unfilled p) {view : List Byte} (hview : view.length < 2 ^ 31)
    (mem : Memory) : max (p.create view mem).1 0 ≤ view.length := by
  have hexit := create_exit p view mem
  generalize p.create view mem = created at hexit ⊢
  cases hexit with
  | short => exact Int.max_le.mpr ⟨by omega, by omega⟩
  | noMagic => exact Int.max_le.mpr ⟨by omega, by omega⟩
  | @cutHeader junk rest _ _ hsplit =>
    have hlen := congrArg List.length hsplit
    rw [List.length_append] at hlen
    rw [(sizeToInt_neg_iff _).mpr (by omega)]
    omega
  | @header junk rest _ _ hsplit _ hfit =>
    have hlen := congrArg List.length hsplit
    rw [List.length_append] at hlen
    rw [List.length_cons] at hlen
    rw [sizeToInt_of_lt (by omega)]
    omega
  | cutContent => exact Int.max_le.mpr ⟨by omega, by omega⟩
  | content _ hstate hfit =>
    have hcontent := h (Or.inr hstate)
    rw [taken_of_fit hcontent hfit]
    rw [hcontent, List.length_nil, Nat.zero_add]
    rw [subSize_self]
    show max 0 0 ≤ (view.length : Int)
    omega
  | idle => exact Int.max_le.mpr ⟨by omega, by omega⟩

end Protocol
end Fish
