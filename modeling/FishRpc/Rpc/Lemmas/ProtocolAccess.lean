import FishRpc.Lib.Run
import FishRpc.Rpc.Impl.ProtocolAccess
import FishRpc.Rpc.Lemmas.ProtocolRecovery

/-!
This module contains the calls of `create` that stay inside the view and inside `msgStr`. The copy of
the header is not bounded by the view, and the digits of the content length are looked for at the
place that the header names. The memory around the two has no influence on a call that stays inside.
-/

namespace Fish
namespace Protocol

namespace Access

def Inside (size : Nat) : Access → Prop
  | view i => i < size
  | msgStr i => 0 ≤ i ∧ i < 16

instance (size : Nat) (access : Access) : Decidable (access.Inside size) := by
  cases access <;> (unfold Inside; infer_instance)

end Access

-- the header is complete where it is found, and the digits are looked for in `msgStr`
def Fits (p : Protocol) (view : List Byte) : Prop :=
  15 ≤ view.length →
  match p.handleState with
  | .free => ∀ idx, view.findIdx? (· = dfMagic) = some idx → idx + 15 ≤ view.length
  | .waitContent => 4 ≤ p.totalLength.toNat ∧ p.totalLength.toNat ≤ 16
  | _ => True

theorem inside_viewAccesses {n size : Nat} (h : n ≤ size)
    : ∀ access ∈ viewAccesses n, access.Inside size := by
  intro access haccess
  rcases List.mem_map.mp haccess with ⟨i, hi, rfl⟩
  have := List.mem_range.mp hi
  show i < size
  omega

theorem inside_copyAccesses_iff {p : Protocol} (htotal : p.totalLength = dfHeadLength)
    (idx size : Nat)
    : (∀ access ∈ p.copyAccesses idx, access.Inside size) ↔ idx + 15 ≤ size := by
  have hfifteen : p.totalLength.toNat = 15 := by
    rw [htotal]
    rfl
  unfold copyAccesses
  rw [hfifteen]
  constructor
  . intro h
    have hlast : idx + 14 < size := h (.view (idx + 14)) (by simp)
    omega
  . intro h access haccess
    simp only [List.mem_flatMap, List.mem_range, List.mem_cons, List.not_mem_nil, or_false]
      at haccess
    rcases haccess with ⟨i, hi, rfl | rfl⟩
    . show idx + i < size
      omega
    . show 0 ≤ (i : Int) ∧ (i : Int) < 16
      omega

theorem inside_announcedAccesses_iff (p : Protocol) (size : Nat)
    : (∀ access ∈ p.announcedAccesses, access.Inside size)
        ↔
      4 ≤ p.totalLength.toNat ∧ p.totalLength.toNat ≤ 16 := by
  unfold announcedAccesses
  constructor
  . intro h
    have hfirst : 0 ≤ (p.totalLength.toNat : Int) - 4 + (0 : Nat) ∧ _ :=
      h (.msgStr ((p.totalLength.toNat : Int) - 4 + (0 : Nat))) (List.mem_map.mpr ⟨0, by simp⟩)
    have hlast : _ ∧ (p.totalLength.toNat : Int) - 4 + (3 : Nat) < 16 :=
      h (.msgStr ((p.totalLength.toNat : Int) - 4 + (3 : Nat))) (List.mem_map.mpr ⟨3, by simp⟩)
    omega
  . intro h access haccess
    rcases List.mem_map.mp haccess with ⟨k, hk, rfl⟩
    have := List.mem_range.mp hk
    show 0 ≤ (p.totalLength.toNat : Int) - 4 + k ∧ (p.totalLength.toNat : Int) - 4 + k < 16
    omega

theorem inside_freeAccesses_iff {p : Protocol} (htotal : p.totalLength = dfHeadLength)
    (view : List Byte)
    : (∀ access ∈ p.freeAccesses view, access.Inside view.length)
        ↔
      ∀ idx, view.findIdx? (· = dfMagic) = some idx → idx + 15 ≤ view.length := by
  unfold freeAccesses
  cases hfind : view.findIdx? (· = dfMagic) with
  | none => simpa using inside_viewAccesses (Nat.le_refl _)
  | some idx =>
    have hidx : idx < view.length := (List.findIdx?_eq_some_iff_getElem.mp hfind).1
    have hcopy := inside_copyAccesses_iff htotal idx view.length
    simp only [List.mem_append, Option.some.injEq, forall_eq']
    rw [← hcopy]
    constructor
    . intro h access haccess
      apply h access (Or.inr haccess)
    . intro h access haccess
      rcases haccess with haccess | haccess
      . apply inside_viewAccesses (Nat.succ_le_of_lt hidx) access haccess
      . apply h access haccess

theorem inside_waitContentAccesses_iff (p : Protocol) (view : List Byte) (mem : Memory)
    : (∀ access ∈ p.waitContentAccesses view mem, access.Inside view.length)
        ↔
      4 ≤ p.totalLength.toNat ∧ p.totalLength.toNat ≤ 16 := by
  have happend (n : Nat) (hn : n ≤ view.length)
      : (∀ access ∈ p.announcedAccesses ++ viewAccesses n, access.Inside view.length)
          ↔
        4 ≤ p.totalLength.toNat ∧ p.totalLength.toNat ≤ 16 := by
    rw [← inside_announcedAccesses_iff p view.length]
    constructor
    . intro h access haccess
      apply h access (List.mem_append_left _ haccess)
    . intro h access haccess
      rcases List.mem_append.mp haccess with haccess | haccess
      . apply h access haccess
      . apply inside_viewAccesses hn access haccess
  unfold waitContentAccesses
  simp only
  split
  . apply happend _ (Nat.le_refl _)
  . apply happend _ (Nat.min_le_right _ _)

theorem inside_accesses_iff {raw : HeadMsg} {p : Protocol} (hp : Parsing raw p) (view : List Byte)
    (mem : Memory)
    : (∀ access ∈ p.accesses view mem, access.Inside view.length) ↔ p.Fits view := by
  unfold accesses Fits
  by_cases hlen : 15 ≤ view.length
  . have hlong : ¬view.length < dfHeadLength.toNat := Nat.not_lt.mpr hlen
    rw [if_neg hlong]
    cases hstate : p.handleState with
    | free =>
      have htotal : p.totalLength = dfHeadLength := by
        rw [hp.1 hstate]
        apply new_totalLength
      simp only [hlen, forall_const]
      apply inside_freeAccesses_iff htotal
    | waitContent =>
      simp only [hlen, forall_const]
      apply inside_waitContentAccesses_iff
    | lack => simp
    | ready => simp
    | working => simp
  . have hshort : view.length < dfHeadLength.toNat := Nat.not_le.mp hlen
    rw [if_pos hshort]
    simp [hlen]

/-! ### The memory around the view and the array -/

theorem announced_congr {p : Protocol} (mem mem' : Memory)
    (h : 4 ≤ p.totalLength.toNat ∧ p.totalLength.toNat ≤ 16)
    : p.announced mem = p.announced mem' := by
  unfold announced
  apply List.foldl_ext
  intro cl k hk
  have hlt := List.mem_range.mp hk
  have hrange : 0 ≤ (p.totalLength.toNat : Int) - 4 + k ∧
      (p.totalLength.toNat : Int) - 4 + k < 16 := by
    omega
  unfold msgStrAt
  rw [dif_pos hrange]
  rw [dif_pos hrange]

theorem copyHead_congr {p : Protocol} {view : List Byte} (mem mem' : Memory)
    (h : p.totalLength.toNat ≤ view.length) : p.copyHead view mem = p.copyHead view mem' := by
  unfold copyHead
  simp only [Protocol.mk.injEq, and_true]
  unfold HeadMsg.overwrite
  simp only [HeadMsg.mk.injEq]
  funext i
  split
  . have hi : i.val - 0 < view.length := by omega
    rw [List.getD_eq_getElem _ _ hi]
    rw [List.getD_eq_getElem _ _ hi]
  . rfl

/--
A call whose accesses are inside does not depend on what lies outside.
-/
theorem create_congr {raw : HeadMsg} {p : Protocol} (hp : Parsing raw p) {view : List Byte}
    (mem mem' : Memory) (h : ∀ access ∈ p.accesses view mem, access.Inside view.length)
    : p.create view mem = p.create view mem' := by
  have hfits := (inside_accesses_iff hp view mem).mp h
  unfold create
  split
  . rfl
  . have hlen : 15 ≤ view.length := Nat.le_of_not_lt (by assumption)
    have hfits := hfits hlen
    cases hstate : p.handleState with
    | free =>
      rw [hstate] at hfits
      have htotal : p.totalLength = dfHeadLength := by
        rw [hp.1 hstate]
        apply new_totalLength
      simp only
      unfold createFree
      cases hfind : view.findIdx? (· = dfMagic) with
      | none => rfl
      | some idx =>
        have hcopy : p.copyHead (view.drop idx) mem = p.copyHead (view.drop idx) mem' := by
          apply copyHead_congr
          have hidx := hfits idx hfind
          rw [htotal]
          rw [List.length_drop]
          show 15 ≤ view.length - idx
          omega
        simp only [hcopy]
    | waitContent =>
      rw [hstate] at hfits
      simp only
      unfold createWaitContent
      rw [announced_congr mem mem' hfits]
    | lack => rfl
    | ready => rfl
    | working => rfl

/-! ### Sequences of calls -/

namespace Watched

def AllInside (s : Watched) : Prop := ∀ access ∈ s.accesses, access.2.Inside access.1

theorem allInside_create_iff {raw : HeadMsg} {s : Watched} (hs : Parsing raw s.protocol)
    (call : List Byte × Memory)
    : (s.create call).AllInside ↔ s.AllInside ∧ s.protocol.Fits call.1 := by
  rw [← inside_accesses_iff hs call.1 call.2]
  unfold AllInside create
  constructor
  . intro h
    constructor
    . intro access haccess
      apply h access (List.mem_append_left _ haccess)
    . intro access haccess
      apply h (call.1.length, access)
      apply List.mem_append_right
      apply List.mem_map_of_mem haccess
  . intro h access haccess
    rcases List.mem_append.mp haccess with haccess | haccess
    . apply h.1 access haccess
    . rcases List.mem_map.mp haccess with ⟨access, hmem, rfl⟩
      apply h.2 access hmem

end Watched

/--
The accesses of a sequence of calls are all inside exactly if each header is complete where it is
found and names a place inside `msgStr`.
-/
theorem allInside_iff (raw : HeadMsg) (calls : List (List Byte × Memory))
    : (watch raw calls).AllInside ↔
      Run (Run.Next Watched.create) (fun s call => s.protocol.Fits call.1) ⟨.new raw, []⟩ calls
        (watch raw calls) := by
  let Inv := fun s : Watched => Parsing raw s.protocol
  have hinit : Inv ⟨.new raw, []⟩ := parsing_new raw
  have hstart : (⟨.new raw, []⟩ : Watched).AllInside := by simp [Watched.AllInside]
  have hinv : ∀ s call s', Inv s → Run.Next Watched.create s call s' → Inv s' := by
    intro s call s' hs hstep
    rw [hstep]
    apply parsing_create hs
  have hiff : ∀ s call s', Inv s → Run.Next Watched.create s call s' →
      (s'.AllInside ↔ s.AllInside ∧ s.protocol.Fits call.1) := by
    intro s call s' hs hstep
    rw [hstep]
    apply Watched.allInside_create_iff hs
  apply Run.holds_iff hinit hstart hinv hiff (Run.foldl Watched.create _ calls)

-- a view of 15 bytes whose last one is the magic byte
theorem outside_magic
    : ¬(watch ⟨fun _ => 0⟩
        [(List.replicate 14 0 ++ [dfMagic], ⟨fun _ => 0, fun _ => 0⟩)]).AllInside := by
  intro h
  have hlast : Access.Inside 15 (.view 28) := h (15, .view 28) (by decide)
  revert hlast
  decide

end Protocol
end Fish
