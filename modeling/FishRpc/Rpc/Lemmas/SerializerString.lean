import FishRpc.Rpc.Lemmas.SerializerSet

/-!
This module contains values with strings in them. `output_string` never resizes the string that it
returns, so the bytes of a string are taken from the stream but every string comes back empty.
-/

namespace Fish

namespace CppType

-- the supported types and their combinations, where C++ has an order or a hash for the keys
def documented : CppType p → Bool
  | scalar _ => true
  | string => true
  | seq .vector (scalar .bool) => false
  | seq _ t => t.documented
  | set _ t => t.comparable && t.documented
  | pair a b => a.documented && b.documented
  | map _ a b => a.comparable && a.documented && b.documented
  | tuple ts => ts.documented
  | nil => true
  | cons t ts => t.documented && ts.documented

-- all strings in a value, wherever they are
def StringsEmpty : (t : CppType p) → t.carrier → Prop
  | scalar _, _ => True
  | string, v => v = ([] : List Byte)
  | seq _k t, (v : List t.carrier) => ∀ x ∈ v, t.StringsEmpty x
  | set _k t, (v : List t.carrier) => ∀ x ∈ v, t.StringsEmpty x
  | pair a b, v => a.StringsEmpty v.1 ∧ b.StringsEmpty v.2
  | map _k a b, (v : List (a.carrier × b.carrier)) =>
    ∀ x ∈ v, a.StringsEmpty x.1 ∧ b.StringsEmpty x.2
  | tuple ts, v => ts.StringsEmpty v
  | nil, _ => True
  | cons t ts, v => t.StringsEmpty v.1 ∧ ts.StringsEmpty v.2

-- no set in a value has elements whose bytes `output` leaves in the stream
def SetsRead : (t : CppType p) → t.carrier → Prop
  | scalar _, _ => True
  | string, _ => True
  | seq _k t, (v : List t.carrier) => ∀ x ∈ v, t.SetsRead x
  | set _k t, (v : List t.carrier) => t.composite = true → ∀ x ∈ v, Serializer.encode t x = []
  | pair a b, v => a.SetsRead v.1 ∧ b.SetsRead v.2
  | map _k a b, (v : List (a.carrier × b.carrier)) => ∀ x ∈ v, a.SetsRead x.1 ∧ b.SetsRead x.2
  | tuple ts, v => ts.SetsRead v
  | nil, _ => True
  | cons t ts, v => t.SetsRead v.1 ∧ ts.SetsRead v.2

theorem stringsEmpty_default (t : CppType p) : t.StringsEmpty t.default := by
  induction t with
  | scalar s => trivial
  | string => rfl
  | seq k t ih => exact fun _ h => absurd h List.not_mem_nil
  | set k t ih => exact fun _ h => absurd h List.not_mem_nil
  | pair a b iha ihb => exact ⟨iha, ihb⟩
  | map k a b iha ihb => exact fun _ h => absurd h List.not_mem_nil
  | tuple ts ih => exact ih
  | nil => trivial
  | cons t ts iht ihts => exact ⟨iht, ihts⟩

theorem forall_of_forall₂ {α : Type} {same : α → α → Prop} {P : α → Prop}
    (hP : ∀ x y, same x y → P y → P x) {v w : List α} (h : List.Forall₂ same v w)
    (hw : ∀ y ∈ w, P y) : ∀ x ∈ v, P x := by
  induction h with
  | nil => exact fun _ h => absurd h List.not_mem_nil
  | @cons x y v w hxy _ ih =>
    rw [List.forall_mem_cons] at hw ⊢
    exact ⟨hP x y hxy hw.1, ih hw.2⟩

theorem forall_of_sameElements {α : Type} {ordered : Bool} {same : α → α → Prop} {P : α → Prop}
    (hP : ∀ x y, same x y → P y → P x) {v w : List α} (h : Same.sameElements ordered same v w)
    (hw : ∀ y ∈ w, P y) : ∀ x ∈ v, P x := by
  unfold Same.sameElements at h
  cases ordered with
  | true => exact forall_of_forall₂ hP h hw
  | false =>
    rcases h with ⟨u, hsame, hperm⟩
    exact forall_of_forall₂ hP hsame fun y hy => hw y (hperm.mem_iff.mp hy)

theorem StringsEmpty.of_same (t : CppType p) {v w : t.carrier} (h : t.Same v w)
    (hw : t.StringsEmpty w) : t.StringsEmpty v := by
  induction t with
  | scalar s => trivial
  | string => exact Eq.trans h hw
  | seq k t ih => exact forall_of_forall₂ (fun _ _ hxy hy => ih hxy hy) h hw
  | set k t ih => exact forall_of_sameElements (fun _ _ hxy hy => ih hxy hy) h hw
  | pair a b iha ihb => exact ⟨iha h.1 hw.1, ihb h.2 hw.2⟩
  | map k a b iha ihb =>
    apply forall_of_sameElements _ h hw
    intro x y hxy hy
    exact ⟨iha hxy.1 hy.1, ihb hxy.2 hy.2⟩
  | tuple ts ih => exact ih h hw
  | nil => trivial
  | cons t ts iht ihts => exact ⟨iht h.1 hw.1, ihts h.2 hw.2⟩

end CppType

namespace Serializer

/-! ### What is decoded -/

theorem readLoop_invariant {α β : Type} {read : Serializer → α × Serializer} {store : α → β → β}
    {P : α → Prop} {Q : β → Prop} (hread : ∀ s, P (read s).1)
    (hstore : ∀ x v, P x → Q v → Q (store x v)) (size : Nat) {v : β} (hv : Q v) (s : Serializer)
    : Q (readLoop size read store v s).1 := by
  apply readLoop_keeps (P := fun v _ => Q v)
  . intro v s hv
    apply hstore (read s).1 v (hread s) hv
  . exact hv

theorem output_stringsEmpty (t : CppType .type) (s : Serializer)
    : t.StringsEmpty (output t t.default s).2.1 := by
  cases t with
  | scalar t => trivial
  | string => rfl
  | _ => exact CppType.stringsEmpty_default _

theorem insert_forall (h : Placement) {α κ : Type} {unique ordered : Bool}
    {less equal : κ → κ → Bool} {key : α → κ} {P : α → Prop} (x : α) (l : List α) (hx : P x)
    (hl : ∀ y ∈ l, P y) : ∀ y ∈ h.insert unique ordered less equal key x l, P y := by
  intro y hy
  rcases h.mem_insert hy with rfl | hy
  . exact hx
  . apply hl y hy

/--
Whatever is in the stream, no string is read from it.
-/
theorem shr_stringsEmpty (h : Placement) (t : CppType p) (s : Serializer)
    : t.StringsEmpty (shr h t t.default s).1 := by
  induction t generalizing s with
  | scalar t => trivial
  | string => rfl
  | seq k t ih =>
    have hpush (x : t.carrier) (v : List t.carrier) (hx : t.StringsEmpty x)
        (hv : ∀ y ∈ v, t.StringsEmpty y) : ∀ y ∈ v ++ [x], t.StringsEmpty y := by
      intro y hy
      rcases List.mem_append.mp hy with hy | hy
      . apply hv y hy
      . exact List.mem_singleton.mp hy ▸ hx
    have hlist : (CppType.seq .list t).StringsEmpty (shr h (.seq .list t) [] s).1 :=
      readLoop_invariant ih hpush _ (fun _ h => absurd h List.not_mem_nil) _
    cases k with
    | list | deque => exact hlist
    | vector =>
      have hvector := shr_vector h t [] s
      exact hvector ▸ hlist
  | set k t ih =>
    exact readLoop_invariant (output_stringsEmpty t) (insert_forall h) _
      (fun _ h => absurd h List.not_mem_nil) _
  | pair a b iha ihb => exact ⟨iha s, ihb (shr h a a.default s).2⟩
  | map k a b iha ihb =>
    have hpair (s : Serializer) : a.StringsEmpty (shr h a a.default s).1 ∧
        b.StringsEmpty (shr h b b.default (shr h a a.default s).2).1 :=
      ⟨iha s, ihb (shr h a a.default s).2⟩
    exact readLoop_invariant hpair (insert_forall h) _ (fun _ h => absurd h List.not_mem_nil) _
  | tuple ts ih => exact ih s
  | nil => trivial
  | cons t ts iht ihts => exact ⟨iht s, ihts (shr h t t.default s).2⟩

/-! ### Round trips -/

theorem string_reads (old : List Byte)
    : Reads (fun s => (output .string old s).2) Eq [] (encode .string ([] : List Byte)) := by
  intro s rest hs
  have hsize := SeriBuf.outputFixed_toBytes sizeofSizeT s.buf 0 rest hs
  refine ⟨rfl, ?_⟩
  show (s.buf.outputString).2.buf = rest
  unfold SeriBuf.outputString SeriBuf.output
  simp only [hsize.1, hsize.2]
  rfl

theorem set_reads_of_stringsEmpty (h : Placement) (k : SetKind) (t : CppType .type)
    {v : List t.carrier} (hv : (CppType.set k t).Wf v) (hempty : (CppType.set k t).StringsEmpty v)
    (hsets : (CppType.set k t).SetsRead v)
    : Reads (shr h (.set k t) []) (CppType.set k t).Same v (encode (.set k t) v) := by
  cases hcomposite : t.composite with
  | true => exact (reads_set_composite_iff h k hcomposite hv).mpr (hsets hcomposite)
  | false =>
    cases t with
    | scalar t => exact shr_set_reads h k _ v hv.1 hv.2.2 fun x _ => scalar_reads t x t.default
    | string =>
      apply shr_set_reads h k .string v hv.1 hv.2.2
      intro x hx
      have hx : x = [] := hempty x hx
      rw [hx]
      apply string_reads
    | _ => cases hcomposite

theorem reads_of_stringsEmpty (h : Placement) {t : CppType p} (ht : t.documented = true)
    {v : t.carrier} (hv : t.Wf v) (hempty : t.StringsEmpty v) (hsets : t.SetsRead v)
    : Reads (shr h t t.default) t.Same v (encode t v) := by
  induction t with
  | scalar t => exact scalar_reads t v t.default
  | string =>
    have hv : v = [] := hempty
    subst hv
    exact string_reads []
  | seq k t ih =>
    have ht : t.documented = true := by
      unfold CppType.documented at ht
      split at ht <;> simp_all
    exact shr_seq_reads h k t v hv.1 fun x hx => ih ht (hv.2 x hx) (hempty x hx) (hsets x hx)
  | set k t ih => exact set_reads_of_stringsEmpty h k t hv hempty hsets
  | pair a b iha ihb =>
    simp only [CppType.documented, Bool.and_eq_true] at ht
    exact Reads.pair (iha ht.1 hv.1 hempty.1 hsets.1) (ihb ht.2 hv.2 hempty.2 hsets.2)
  | map k a b iha ihb =>
    simp only [CppType.documented, Bool.and_eq_true] at ht
    exact shr_map_reads h k a b ht.1.1 v hv.1 hv.2.2
      (fun x hx => iha ht.1.2 (hv.2.1 x hx).1 (hempty x hx).1 (hsets x hx).1)
      (fun x hx => ihb ht.2 (hv.2.1 x hx).2 (hempty x hx).2 (hsets x hx).2)
  | tuple ts ih => exact ih ht hv hempty hsets
  | nil => exact fun _ _ hs => ⟨trivial, hs⟩
  | cons t ts iht ihts =>
    simp only [CppType.documented, Bool.and_eq_true] at ht
    exact Reads.pair (iht ht.1 hv.1 hempty.1 hsets.1) (ihts ht.2 hv.2 hempty.2 hsets.2)

/--
A value with strings in it is read back only if all of them are empty, and it is read back then
unless a set of composite elements has left bytes in the stream.
-/
theorem roundTrips_iff_stringsEmpty (h : Placement) {t : CppType p} (ht : t.documented = true)
    {v : t.carrier} (hv : t.Wf v)
    : (RoundTrips h t v → t.StringsEmpty v) ∧
      (t.SetsRead v → (RoundTrips h t v ↔ t.StringsEmpty v)) := by
  have hnecessary : RoundTrips h t v → t.StringsEmpty v := by
    intro htrip
    let s : Serializer := ⟨⟨written t v, fun _ => 0⟩⟩
    have hsame := (htrip s [] (List.append_nil _).symm).1
    apply CppType.StringsEmpty.of_same t hsame (shr_stringsEmpty h t s)
  refine ⟨hnecessary, fun hsets => ⟨hnecessary, fun hempty => ?_⟩⟩
  rw [roundTrips_iff]
  apply reads_of_stringsEmpty h ht hv hempty hsets

def names : CppType .type := .map .map .string (.seq .vector .string)

theorem roundTrips_iff_stringsEmpty_names
    : let v : names.carrier := [([], [[], []])]
      names.SetsRead v ∧ (RoundTrips .front names v ↔ names.StringsEmpty v) := by
  intro v
  have hsets : names.SetsRead v := fun _ _ => ⟨trivial, fun _ _ => trivial⟩
  have hshort : CppType.string.Wf ([] : List Byte) := Nat.two_pow_pos 64
  have hwf : names.Wf v := by
    refine ⟨by decide, ?_, List.pairwise_singleton _ _⟩
    intro x hx
    rw [List.mem_singleton.mp hx]
    refine ⟨hshort, by decide, fun y hy => ?_⟩
    exact List.eq_of_mem_replicate (n := 2) hy ▸ hshort
  exact ⟨hsets, (roundTrips_iff_stringsEmpty .front rfl hwf).2 hsets⟩

theorem not_roundTrips_a : ¬RoundTrips .front .string ([97] : List Byte) := by
  intro h
  let s : Serializer := ⟨⟨written .string ([97] : List Byte), fun _ => 0⟩⟩
  have hsame : ([97] : List Byte) = [] := (h s [] (List.append_nil _).symm).1
  cases hsame

end Serializer
end Fish
