import FishRpc.Rpc.Impl.SerializerChecked
import FishRpc.Rpc.Lemmas.Serializer

/-!
This module contains the proof that reads that come to their end are those of `shr`, and the
specification of the size that a container is decoded with.
-/

namespace Fish

open LittleEndian

namespace SeriBuf

theorem outputStringChecked_eq (s : SeriBuf)
    : s.outputStringChecked
        =
      if stringRoom <
          min (s.outputFixed sizeofSizeT).1.toNat (s.outputFixed sizeofSizeT).2.buf.length then
        .error .undefined
      else
        .ok s.outputString := rfl

theorem outputString_of_outputStringChecked {s : SeriBuf} {r : List Byte × SeriBuf}
    (h : s.outputStringChecked = .ok r) : s.outputString = r := by
  rw [outputStringChecked_eq] at h
  split at h
  . cases h
  . exact Except.ok.inj h

end SeriBuf

namespace Serializer

-- the first bytes of the buffer, short of data followed by what the local variable holds
def announced (s : Serializer) : Nat :=
  ofBytes (s.bytes.take sizeofSizeT ++
    ((List.range sizeofSizeT).map s.buf.stack).drop s.bytes.length)

theorem outputSize_announced (s : Serializer) : (outputSize s).1 = announced s := by
  have hbytes : (s.bytes.take sizeofSizeT ++
      ((List.range sizeofSizeT).map s.buf.stack).drop s.bytes.length).length = sizeofSizeT := by
    simp only [List.length_append, List.length_take, List.length_drop, List.length_map,
      List.length_range]
    omega
  have hlt := ofBytes_lt (s.bytes.take sizeofSizeT ++
    ((List.range sizeofSizeT).map s.buf.stack).drop s.bytes.length)
  rw [hbytes] at hlt
  have hread : (outputSize s).1 = (BitVec.ofNat 64 (announced s)).toNat := by
    show (s.buf.outputFixed sizeofSizeT).1.toNat = _
    rw [SeriBuf.outputFixed_eq]
    rfl
  rw [hread]
  rw [BitVec.toNat_ofNat]
  apply Nat.mod_eq_of_lt hlt

theorem bind_eq_ok {α β : Type} {x : Except Fault α} {k : α → Except Fault β} {b : β}
    : x >>= k = .ok b ↔ ∃ a, x = .ok a ∧ k a = .ok b := by
  cases x with
  | error fault =>
    constructor
    . intro h
      cases h
    . rintro ⟨a, h, _⟩
      cases h
  | ok a =>
    constructor
    . intro h
      exact ⟨a, rfl, h⟩
    . rintro ⟨a', h, hk⟩
      cases h
      exact hk

theorem output_of_outputChecked {t : CppType .type} {v : t.carrier} {s : Serializer}
    {r : Bool × t.carrier × Serializer} (h : outputChecked t v s = .ok r) : output t v s = r := by
  cases t with
  | string =>
    rcases bind_eq_ok.mp h with ⟨x, hx, hr⟩
    have hstring := SeriBuf.outputString_of_outputStringChecked hx
    rw [← Except.ok.inj hr, ← hstring]
    rfl
  | _ => exact Except.ok.inj h

theorem output_of_elementChecked {t : CppType .type} {v : t.carrier} {s : Serializer}
    {r : t.carrier × Serializer} (h : elementChecked t v s = .ok r) : (output t v s).2 = r := by
  rcases bind_eq_ok.mp h with ⟨x, hx, hr⟩
  rw [output_of_outputChecked hx]
  exact Except.ok.inj hr

theorem readLoop_of_readLoopChecked {α β : Type}
    {checked : Serializer → Except Fault (α × Serializer)} {read : Serializer → α × Serializer}
    (hread : ∀ s r, checked s = .ok r → read s = r) {store : α → β → β} {size : Nat} {v : β}
    {s : Serializer} {r : β × Serializer} (h : readLoopChecked checked store size v s = .ok r)
    : readLoop size read store v s = r := by
  induction size generalizing v s with
  | zero => exact Except.ok.inj h
  | succ size ih =>
    rcases bind_eq_ok.mp h with ⟨x, hx, hrest⟩
    rw [readLoop_succ, hread s x hx]
    apply ih hrest

theorem pair_of_pairChecked {α β : Type} {checkedA : Serializer → Except Fault (α × Serializer)}
    {checkedB : Serializer → Except Fault (β × Serializer)} {readA : Serializer → α × Serializer}
    {readB : Serializer → β × Serializer} (hreadA : ∀ s r, checkedA s = .ok r → readA s = r)
    (hreadB : ∀ s r, checkedB s = .ok r → readB s = r) (s : Serializer) (r : (α × β) × Serializer)
    (h : pairChecked checkedA checkedB s = .ok r)
    : (((readA s).1, (readB (readA s).2).1), (readB (readA s).2).2) = r := by
  rcases bind_eq_ok.mp h with ⟨x, hx, hrest⟩
  rcases bind_eq_ok.mp hrest with ⟨y, hy, hr⟩
  rw [hreadA s x hx, hreadB x.2 y hy]
  exact Except.ok.inj hr

-- assigning to the elements one after the other leaves nothing of them
theorem readLoopChecked_set {α : Type} (read : Serializer → Except Fault (α × Serializer))
    (pre post : List α) (s : Serializer)
    : let set x (iv : Nat × List α) := (iv.1 + 1, iv.2.set iv.1 x)
      (readLoopChecked read set post.length (pre.length, pre ++ post) s >>= fun r =>
          .ok (r.1.2, r.2))
        =
      readLoopChecked read (fun x v => v ++ [x]) post.length pre s := by
  induction post generalizing pre s with
  | nil => exact congrArg (fun v => Except.ok (v, s)) (List.append_nil pre)
  | cons y post ih =>
    show (readLoopChecked read _ (post.length + 1) _ s >>= _) =
      readLoopChecked read _ (post.length + 1) pre s
    unfold readLoopChecked
    cases hread : read s with
    | error fault => rfl
    | ok x =>
      have ih := ih (pre ++ [x.1]) x.2
      rw [List.length_append, List.length_singleton, List.append_assoc] at ih
      show (readLoopChecked read _ post.length
        (pre.length + 1, (pre ++ y :: post).set pre.length x.1) x.2 >>= _) = _
      rw [List.set_append_right _ _ (Nat.le_refl _), Nat.sub_self, List.set_cons_zero]
      exact ih

-- a vector of an allowed size is read like a list from its beginning on
theorem shrChecked_vector (h : Placement) (maxSize : CppType .type → Nat) (t : CppType .type)
    (v : List t.carrier) (s : Serializer)
    : shrChecked h maxSize (.seq .vector t) v s
        =
      if maxSize t < (outputSize s).1 then
        .error .thrown
      else
        shrChecked h maxSize (.seq .list t) [] s := by
  have hset := readLoopChecked_set (shrChecked h maxSize t t.default) []
    (resize (outputSize s).1 t.default v) (outputSize s).2
  rw [length_resize] at hset
  by_cases hlt : maxSize t < (outputSize s).1
  . rw [if_pos hlt]
    have hthrown : resizeChecked (maxSize t) (outputSize s).1 t.default v = .error .thrown :=
      if_pos hlt
    show (resizeChecked (maxSize t) (outputSize s).1 t.default v >>= _) = _
    rw [hthrown]
    rfl
  . rw [if_neg hlt]
    have hresized : resizeChecked (maxSize t) (outputSize s).1 t.default v
        = .ok (resize (outputSize s).1 t.default v) := if_neg hlt
    show (resizeChecked (maxSize t) (outputSize s).1 t.default v >>= _) = _
    rw [hresized]
    exact hset

/--
A call of `operator>>` that comes to its end has read what `shr` reads.
-/
theorem shr_of_shrChecked (h : Placement) (maxSize : CppType .type → Nat) (t : CppType p)
    (v : t.carrier) (s : Serializer) (r : t.carrier × Serializer)
    (hr : shrChecked h maxSize t v s = .ok r) : shr h t v s = r := by
  induction t generalizing s with
  | scalar t => exact output_of_elementChecked hr
  | string => exact output_of_elementChecked hr
  | seq k t ih =>
    cases k with
    | list | deque => exact readLoop_of_readLoopChecked (ih t.default) hr
    | vector =>
      have hvector := shr_vector h t v s
      have hchecked := shrChecked_vector h maxSize t v s
      rw [hchecked] at hr
      rw [hvector]
      split at hr
      . cases hr
      . exact readLoop_of_readLoopChecked (ih t.default) hr
  | set k t ih => exact readLoop_of_readLoopChecked (fun _ _ => output_of_elementChecked) hr
  | pair a b iha ihb => exact pair_of_pairChecked (iha v.1) (ihb v.2) s r hr
  | map k a b iha ihb =>
    exact readLoop_of_readLoopChecked (pair_of_pairChecked (iha a.default) (ihb b.default)) hr
  | tuple ts ih => exact ih v s r hr
  | nil => exact Except.ok.inj hr
  | cons t ts iht ihts => exact pair_of_pairChecked (iht v.1) (ihts v.2) s r hr

end Serializer
end Fish
