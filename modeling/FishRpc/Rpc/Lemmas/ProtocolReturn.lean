import FishRpc.Rpc.Lemmas.ProtocolExit

/-!
This module contains the contract of the return value of `Protocol::create` as the comment on it
puts it: `-1` for a failure, the negative index of a magic byte whose header is cut off, `0` if no
magic byte was read and a positive number for a normal read.
-/

namespace Fish
namespace Protocol

inductive Outcome where
  | failed
  | shortHeader (i : Nat)
  | noMagic
  | read
  deriving DecidableEq

-- the comment leaves open whether a content that the view cuts off is read (`countsCut`)
def outcome (countsCut : Bool) (p : Protocol) (view : List Byte) (mem : Memory) : Outcome :=
  if view.length < dfHeadLength.toNat then
    .failed
  else
    match p.handleState with
    | .free =>
      match view.findIdx? (· = dfMagic) with
      | none => .noMagic
      | some idx =>
        if (view.drop idx).length < p.headerLength view mem idx then .shortHeader idx else .read
    | .waitContent =>
      if view.length + p.content.length < p.contentLengthOf mem ∧ countsCut = false then
        .noMagic
      else
        .read
    | _ => .noMagic

structure Contract (ret : Int) (o : Outcome) : Prop where
  failed : ret = -1 ↔ o = .failed
  shortHeader : ∀ i : Nat, (ret = -i ∧ ret < 0 ∧ ret ≠ -1) ↔ o = .shortHeader i
  noMagic : ret = 0 ↔ o = .noMagic
  read : 0 < ret ↔ o = .read

theorem contract_failed_iff (ret : Int) : Contract ret .failed ↔ ret = -1 := by
  constructor
  . intro h
    apply h.failed.mpr rfl
  . intro h
    constructor <;> simp [h]

theorem contract_noMagic_iff (ret : Int) : Contract ret .noMagic ↔ ret = 0 := by
  constructor
  . intro h
    apply h.noMagic.mpr rfl
  . intro h
    constructor <;> simp [h]

theorem contract_read_iff (ret : Int) : Contract ret .read ↔ 0 < ret := by
  constructor
  . intro h
    apply h.read.mpr rfl
  . intro h
    constructor
    . simp only [reduceCtorEq, iff_false]
      omega
    . simp only [reduceCtorEq, iff_false]
      omega
    . simp only [reduceCtorEq, iff_false]
      omega
    . simp [h]

theorem contract_shortHeader_iff (ret : Int) (i : Nat)
    : Contract ret (.shortHeader i) ↔ ret = -i ∧ 2 ≤ i := by
  constructor
  . intro h
    have := (h.shortHeader i).mpr rfl
    omega
  . intro h
    constructor
    . simp only [reduceCtorEq, iff_false]
      omega
    . simp only [Outcome.shortHeader.injEq]
      omega
    . simp only [reduceCtorEq, iff_false]
      omega
    . simp only [reduceCtorEq, iff_false]
      omega

def KeepsContract (countsCut : Bool) (p : Protocol) (view : List Byte) (mem : Memory) : Prop :=
  15 ≤ view.length →
  match p.handleState with
  | .free =>
    ∃ idx, view.findIdx? (· = dfMagic) = some idx ∧
      if (view.drop idx).length < p.headerLength view mem idx then
        2 ≤ idx ∧ idx ≤ 2 ^ 31
      else
        0 < (idx + p.headerLength view mem idx) % 2 ^ 32 ∧
        (idx + p.headerLength view mem idx) % 2 ^ 32 < 2 ^ 31
  | .waitContent =>
    if view.length + p.content.length < p.contentLengthOf mem then
      countsCut = false
    else
      -- more content than announced, by so much that the negative rest wraps around in `int`
      2 ^ 31 < (p.content.length + p.taken view mem - p.contentLengthOf mem) % 2 ^ 32
  | _ => True

theorem sizeToInt_subSize_pos_iff (p : Protocol) {view : List Byte} {mem : Memory}
    (hfit : p.contentLengthOf mem ≤ view.length + p.content.length)
    : 0 < sizeToInt (subSize (p.contentLengthOf mem) (p.content.length + p.taken view mem))
        ↔
      2 ^ 31 < (p.content.length + p.taken view mem - p.contentLengthOf mem) % 2 ^ 32 := by
  have hlt : p.contentLengthOf mem < 2 ^ 32 := BitVec.isLt _
  have hle : p.contentLengthOf mem ≤ p.content.length + p.taken view mem := by
    by_cases hmore : p.contentLengthOf mem ≤ p.content.length
    . omega
    . unfold taken
      rw [subSize_of_le (by omega) (by omega)]
      omega
  rw [sizeToInt_pos_iff]
  unfold subSize intToSize
  omega

theorem not_short {view : List Byte} (hlen : 15 ≤ view.length)
    : ¬view.length < dfHeadLength.toNat :=
  Nat.not_lt.mpr hlen

section Long

variable (countsCut : Bool) {p : Protocol} {view : List Byte} (mem : Memory)

theorem outcome_magic {junk rest : List Byte} (hlen : 15 ≤ view.length)
    (hstate : p.handleState = .free) (hview : view = junk ++ dfMagic :: rest)
    (hjunk : dfMagic ∉ junk)
    : p.outcome countsCut view mem
        =
      if rest.length + 1 < p.headerLength view mem junk.length then
        .shortHeader junk.length
      else
        .read := by
  have hfind := findIdx?_magic rest hjunk
  have hdrop : (view.drop junk.length).length = rest.length + 1 := by simp [hview]
  rw [← hview] at hfind
  unfold outcome
  rw [if_neg (not_short hlen)]
  simp only [hstate, hfind, hdrop]

theorem keepsContract_magic_iff {junk rest : List Byte} (hlen : 15 ≤ view.length)
    (hstate : p.handleState = .free) (hview : view = junk ++ dfMagic :: rest)
    (hjunk : dfMagic ∉ junk)
    : p.KeepsContract countsCut view mem
        ↔
      if rest.length + 1 < p.headerLength view mem junk.length then
        2 ≤ junk.length ∧ junk.length ≤ 2 ^ 31
      else
        0 < (junk.length + p.headerLength view mem junk.length) % 2 ^ 32 ∧
        (junk.length + p.headerLength view mem junk.length) % 2 ^ 32 < 2 ^ 31 := by
  have hfind := findIdx?_magic rest hjunk
  have hdrop : (view.drop junk.length).length = rest.length + 1 := by simp [hview]
  rw [← hview] at hfind
  unfold KeepsContract
  simp only [hlen, forall_const, hstate, hfind, Option.some.injEq, exists_eq_left', hdrop]

theorem outcome_content (hlen : 15 ≤ view.length) (hstate : p.handleState = .waitContent)
    : p.outcome countsCut view mem
        =
      if view.length + p.content.length < p.contentLengthOf mem ∧ countsCut = false then
        .noMagic
      else
        .read := by
  unfold outcome
  rw [if_neg (not_short hlen)]
  simp only [hstate]

end Long

/--
A call keeps the contract exactly if it fails, finds a magic byte far enough from the front, or does
nothing. A fresh message that finds no magic byte and a message that becomes `READY` break it.
-/
theorem contract_iff (countsCut : Bool) (p : Protocol) (view : List Byte) (mem : Memory)
    : Contract (p.create view mem).1 (p.outcome countsCut view mem)
        ↔
      p.KeepsContract countsCut view mem := by
  have hexit := create_exit p view mem
  generalize p.create view mem = created at hexit ⊢
  cases hexit with
  | short hlen =>
    have houtcome : p.outcome countsCut view mem = .failed := if_pos hlen
    rw [houtcome]
    rw [contract_failed_iff]
    simp [KeepsContract, hlen]
  | noMagic hlen hstate hmagic =>
    have houtcome : p.outcome countsCut view mem = .noMagic := by
      simp [outcome, not_short hlen, hstate, findIdx?_of_not_mem hmagic]
    rw [houtcome]
    rw [contract_noMagic_iff]
    simp [KeepsContract, hlen, hstate, findIdx?_of_not_mem hmagic]
  | cutHeader hlen hstate hview hjunk hcut =>
    rw [outcome_magic countsCut mem hlen hstate hview hjunk]
    rw [keepsContract_magic_iff countsCut mem hlen hstate hview hjunk]
    rw [if_pos hcut, if_pos hcut]
    rw [contract_shortHeader_iff]
    rw [sizeToInt_neg_iff]
    apply and_comm
  | header hlen hstate hview hjunk hfit =>
    rw [outcome_magic countsCut mem hlen hstate hview hjunk]
    rw [keepsContract_magic_iff countsCut mem hlen hstate hview hjunk]
    rw [if_neg (Nat.not_lt.mpr hfit), if_neg (Nat.not_lt.mpr hfit)]
    rw [contract_read_iff]
    rw [sizeToInt_pos_iff]
  | cutContent hlen hstate hcut =>
    rw [outcome_content countsCut mem hlen hstate]
    simp only [KeepsContract, hstate, hcut, true_and, if_true, hlen, forall_const]
    cases countsCut with
    | false => simp [contract_noMagic_iff]
    | true => simp [contract_read_iff]
  | content hlen hstate hfit =>
    rw [outcome_content countsCut mem hlen hstate]
    simp only [KeepsContract, hstate, Nat.not_lt.mpr hfit, false_and, if_false, hlen, forall_const]
    rw [contract_read_iff]
    apply sizeToInt_subSize_pos_iff p hfit
  | idle hlen hfree hwait =>
    have hboth : p.outcome countsCut view mem = .noMagic ∧ p.KeepsContract countsCut view mem := by
      unfold outcome KeepsContract
      rw [if_neg (not_short hlen)]
      cases hstate : p.handleState with
      | free => exact absurd hstate hfree
      | waitContent => exact absurd hstate hwait
      | lack | ready | working => simp
    rw [hboth.1]
    rw [contract_noMagic_iff]
    exact iff_of_true rfl hboth.2

theorem not_contract_zeros
    : let p := new ⟨fun _ => 0⟩
      let view : List Byte := List.replicate 15 0
      let mem : Memory := ⟨fun _ => 0, fun _ => 0⟩
      ¬Contract (p.create view mem).1 (p.outcome false view mem) ∧
      ¬Contract (p.create view mem).1 (p.outcome true view mem) := by
  intro p view mem
  have hret : (p.create view mem).1 = -1 := by decide
  constructor
  . intro h
    have hzero := h.noMagic.mpr (by decide)
    omega
  . intro h
    have hzero := h.noMagic.mpr (by decide)
    omega

end Protocol
end Fish
