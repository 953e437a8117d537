import FishRpc.Rpc.Lemmas.Serializer

/-!
This module contains sets whose elements are neither scalars nor strings. Their elements are written
by `operator<<` and read by `output`, which does not know them: it takes no bytes and leaves the
element as it was declared.
-/

namespace Fish

namespace CppType

-- what `output` does not know
def composite : CppType p → Bool
  | scalar _ => false
  | string => false
  | _ => true

theorem sameElements_refl {α : Type} {same : α → α → Prop} (hsame : ∀ x, same x x)
    (ordered : Bool) (v : List α) : Same.sameElements ordered same v v := by
  have hall : List.Forall₂ same v v := List.forall₂_same.mpr fun x _ => hsame x
  unfold Same.sameElements
  split
  . exact hall
  . exact ⟨v, hall, .refl v⟩

theorem same_refl (t : CppType p) (v : t.carrier) : t.Same v v := by
  induction t with
  | scalar s => rfl
  | string => rfl
  | seq k t ih => exact List.forall₂_same.mpr fun x _ => ih x
  | set k t ih => exact sameElements_refl ih k.ordered v
  | pair a b iha ihb => exact ⟨iha v.1, ihb v.2⟩
  | map k a b iha ihb => exact sameElements_refl (fun x => ⟨iha x.1, ihb x.2⟩) k.ordered v
  | tuple ts ih => exact ih v
  | nil => trivial
  | cons t ts iht ihts => exact ⟨iht v.1, ihts v.2⟩

theorem sameElements_imp {α : Type} {same same' : α → α → Prop}
    (himp : ∀ x y, same x y → same' x y) {ordered : Bool} {v w : List α}
    (h : Same.sameElements ordered same v w) : Same.sameElements ordered same' v w := by
  unfold Same.sameElements at h ⊢
  cases ordered with
  | true => exact List.Forall₂.imp himp h
  | false =>
    rcases h with ⟨u, hsame, hperm⟩
    exact ⟨u, hsame.imp himp, hperm⟩

end CppType

namespace Serializer

open LittleEndian

theorem toBytes_sizeofSizeT_ne_nil (size : Nat) : toBytes sizeofSizeT size ≠ [] := by
  intro h
  have hlen := congrArg List.length h
  rw [length_toBytes] at hlen
  cases hlen

-- only objects of types with a single value have no bytes
theorem eq_of_encode_nil (t : CppType p) {v : t.carrier} (h : encode t v = []) (w : t.carrier)
    : w = v := by
  induction t with
  | scalar s =>
    have hlen := congrArg List.length h
    cases s <;> simp [encode, Scalar.bytes] at hlen
  | string => exact absurd (List.append_eq_nil_iff.mp h).1 (toBytes_sizeofSizeT_ne_nil _)
  | seq k t ih => exact absurd (List.append_eq_nil_iff.mp h).1 (toBytes_sizeofSizeT_ne_nil _)
  | set k t ih => exact absurd (List.append_eq_nil_iff.mp h).1 (toBytes_sizeofSizeT_ne_nil _)
  | pair a b iha ihb =>
    have hboth := List.append_eq_nil_iff.mp h
    exact Prod.ext (iha hboth.1 w.1) (ihb hboth.2 w.2)
  | map k a b iha ihb => exact absurd (List.append_eq_nil_iff.mp h).1 (toBytes_sizeofSizeT_ne_nil _)
  | tuple ts ih => exact ih h w
  | nil => rfl
  | cons t ts iht ihts =>
    have hboth := List.append_eq_nil_iff.mp h
    exact Prod.ext (iht hboth.1 w.1) (ihts hboth.2 w.2)

theorem readLoop_const {α β : Type} {read : Serializer → α × Serializer} {x : α}
    (hread : ∀ s, read s = (x, s)) (store : α → β → β) (size : Nat) (v : β) (s : Serializer)
    : readLoop size read store v s
        =
      ((List.replicate size x).foldl (fun v x => store x v) v, s) := by
  induction size generalizing v with
  | zero => rfl
  | succ size ih =>
    rw [List.replicate_succ, List.foldl_cons, ← ih]
    unfold readLoop
    rw [Function.iterate_succ_apply]
    simp only [hread]

theorem output_composite {t : CppType .type} (ht : t.composite = true) (v : t.carrier)
    (s : Serializer) : (output t v s).2 = (v, s) := by
  cases t with
  | scalar | string => cases ht
  | _ => rfl

/--
As many default elements are stored as the size says, and the bytes of the elements are left.
-/
theorem shr_set_composite (h : Placement) (k : SetKind) {t : CppType .type}
    (ht : t.composite = true) {v : List t.carrier} (hlen : v.length < 2 ^ 64) {s : Serializer}
    {rest : List Byte} (hs : s.bytes = encode (.set k t) v ++ rest)
    : (shr h (.set k t) [] s).1
          =
        (List.replicate v.length t.default).foldl
          (fun m x => h.insert k.unique k.ordered t.less t.equal id x m) []
        ∧
        (shr h (.set k t) [] s).2.bytes = v.flatMap (encode t) ++ rest := by
  have hsize := outputSize_bytes v.length hlen s (v.flatMap (encode t) ++ rest)
    (by rw [hs]; exact List.append_assoc _ _ _)
  have hloop := readLoop_const (output_composite ht t.default)
    (h.insert k.unique k.ordered t.less t.equal id) (outputSize s).1 [] (outputSize s).2
  have hshr : shr h (.set k t) [] s
      = readLoop (outputSize s).1 (fun s => (output t t.default s).2)
          (h.insert k.unique k.ordered t.less t.equal id) [] (outputSize s).2 := rfl
  rw [hshr, hloop, hsize.1]
  exact ⟨rfl, hsize.2⟩

theorem reads_set_composite_iff (h : Placement) (k : SetKind) {t : CppType .type}
    (ht : t.composite = true) {v : List t.carrier} (hv : (CppType.set k t).Wf v)
    : Reads (shr h (.set k t) []) (CppType.set k t).Same v (encode (.set k t) v)
        ↔
      ∀ x ∈ v, encode t x = [] := by
  constructor
  . intro hreads
    let s : Serializer := ⟨⟨encode (.set k t) v, fun _ => 0⟩⟩
    have hs : s.bytes = encode (.set k t) v ++ [] := (List.append_nil _).symm
    have hleft := (shr_set_composite h k ht hv.1 hs).2
    rw [(hreads s [] hs).2, List.append_nil] at hleft
    apply List.flatMap_eq_nil_iff.mp hleft.symm
  . intro hnil s rest hs
    have hread := shr_set_composite h k ht hv.1 hs
    have hflat : v.flatMap (encode t) = [] := List.flatMap_eq_nil_iff.mpr hnil
    have hv' : v = List.replicate v.length t.default := by
      apply List.eq_replicate_of_mem
      intro x hx
      exact (eq_of_encode_nil t (hnil x hx) t.default).symm
    have hsame := h.foldl_insert_same k.unique k.ordered t.less t.equal id Eq (fun _ _ h => h) v v
      (List.forall₂_same.mpr fun _ _ => rfl) hv.2.2
    rw [hflat, List.nil_append] at hread
    rw [← hv'] at hread
    refine ⟨?_, hread.2⟩
    have hsame' := @CppType.sameElements_imp _ Eq t.Same (fun x _ hxy => hxy ▸ t.same_refl x) _ _ _
      hsame
    exact hread.1 ▸ hsame'

/--
A set of composite elements is read back exactly if its elements have no bytes.
-/
theorem roundTrips_set_iff (h : Placement) (k : SetKind) {t : CppType .type}
    (ht : t.composite = true) {v : List t.carrier} (hv : (CppType.set k t).Wf v)
    : RoundTrips h (.set k t) v ↔ ∀ x ∈ v, written t x = [] := by
  simp only [written_eq t]
  exact (roundTrips_iff h (.set k t) v).trans (reads_set_composite_iff h k ht hv)

def intPair : CppType .type := .pair (.scalar .int32) (.scalar .int32)

theorem roundTrips_set_iff_intPair
    : RoundTrips .front (.set .set intPair) [(1#32, 2#32)]
        ↔
      ∀ x ∈ ([(1#32, 2#32)] : List intPair.carrier), written intPair x = [] :=
  roundTrips_set_iff .front .set rfl
    ⟨by decide, fun _ _ => ⟨trivial, trivial⟩, List.pairwise_singleton _ _⟩

-- the pair is read back as (0, 0), and its 8 bytes are left
theorem not_roundTrips_intPair : ¬RoundTrips .front (.set .set intPair) [(1#32, 2#32)] := by
  intro h
  let s : Serializer := ⟨⟨written (.set .set intPair) [(1#32, 2#32)], fun _ => 0⟩⟩
  have hleft := (h s [] (List.append_nil _).symm).2
  have hlen := congrArg List.length hleft
  revert hlen
  decide +kernel

end Serializer
end Fish
