import FishRpc.Rpc.Impl.Serializer
import FishRpc.Rpc.Lemmas.SeriBuf
import FishRpc.Rpc.Lemmas.CppType

/-!
This module contains the round trip of `Serializer`: `shl` appends the encoding of a value and `shr`
takes exactly these bytes away again (`Reads`). The containers have two loops in common, `writeAll`
and `readLoop`, the theorems about a single kind of container only evaluate how it stores elements.
-/

namespace Fish

open LittleEndian

def Scalar.bytes : (t : Scalar) → t.carrier → List Byte
  | .bool, (v : Bool) => toBytes 1 v.toNat
  | .int8, (v : BitVec 8) | .uint8, (v : BitVec 8) => toBytes 1 v.toNat
  | .int16, (v : BitVec 16) | .uint16, (v : BitVec 16) => toBytes 2 v.toNat
  | .int32, (v : BitVec 32) | .uint32, (v : BitVec 32) | .float, (v : BitVec 32) =>
    toBytes 4 v.toNat
  | .int64, (v : BitVec 64) | .uint64, (v : BitVec 64) | .double, (v : BitVec 64) =>
    toBytes 8 v.toNat

def sizeBytes (size : Nat) : List Byte :=
  toBytes sizeofSizeT (BitVec.ofNat 64 size).toNat

namespace Serializer

def encode : (t : CppType p) → t.carrier → List Byte
  | .scalar t, v => t.bytes v
  | .string, (v : List Byte) => toBytes sizeofSizeT v.length ++ v
  | .seq _k t, (v : List t.carrier) => sizeBytes v.length ++ v.flatMap (encode t)
  | .set _k t, (v : List t.carrier) => sizeBytes v.length ++ v.flatMap (encode t)
  | .pair a b, v => encode a v.1 ++ encode b v.2
  | .map _k a b, (v : List (a.carrier × b.carrier)) =>
    sizeBytes v.length ++ v.flatMap fun x => encode a x.1 ++ encode b x.2
  | .tuple ts, v => encode ts v
  | .nil, _ => []
  | .cons t ts, v => encode t v.1 ++ encode ts v.2

theorem inputScalar_buf (t : Scalar) (v : t.carrier) (buf : SeriBuf)
    : (inputScalar t v buf).buf = buf.buf ++ t.bytes v := by
  cases t with
  | bool =>
    cases v with
    | false => rfl
    | true => rfl
  | _ => rfl

theorem outputScalar_bytes (t : Scalar) (v : t.carrier) (buf : SeriBuf) (rest : List Byte)
    (hbuf : buf.buf = t.bytes v ++ rest)
    : (outputScalar t buf).1 = v ∧ (outputScalar t buf).2.buf = rest := by
  cases t with
  | bool =>
    have hint8 : buf.buf = toBytes 1 (BitVec.ofNat 8 (Bool.toNat v)).toNat ++ rest := by
      rw [hbuf]
      cases v with
      | false => rfl
      | true => rfl
    have hout := SeriBuf.outputFixed_toBytes 1 buf _ rest hint8
    constructor
    . have hfst : (outputScalar .bool buf).1 = ((buf.outputFixed 1).1 != 0#8) := rfl
      rw [hfst, hout.1]
      cases v with
      | false => rfl
      | true => rfl
    . apply hout.2
  | int8 | uint8 => exact SeriBuf.outputFixed_toBytes 1 buf v rest hbuf
  | int16 | uint16 => exact SeriBuf.outputFixed_toBytes 2 buf v rest hbuf
  | int32 | uint32 | float => exact SeriBuf.outputFixed_toBytes 4 buf v rest hbuf
  | int64 | uint64 | double => exact SeriBuf.outputFixed_toBytes 8 buf v rest hbuf

theorem inputSize_bytes (size : Nat) (s : Serializer)
    : (inputSize size s).bytes = s.bytes ++ sizeBytes size := rfl

theorem outputSize_bytes (size : Nat) (hsize : size < 2 ^ 64) (s : Serializer) (rest : List Byte)
    (hbuf : s.bytes = sizeBytes size ++ rest)
    : (outputSize s).1 = size ∧ (outputSize s).2.bytes = rest := by
  have hout := outputScalar_bytes .uint64 (BitVec.ofNat 64 size) s.buf rest hbuf
  constructor
  . have hfst : (outputSize s).1 = BitVec.toNat (outputScalar .uint64 s.buf).1 := rfl
    rw [hfst, hout.1]
    simp only [BitVec.toNat_ofNat]
    apply Nat.mod_eq_of_lt hsize
  . apply hout.2

theorem writeAll_bytes {α : Type} (write : Serializer → α → Serializer) (encode : α → List Byte)
    (hwrite : ∀ s x, (write s x).bytes = s.bytes ++ encode x) (l : List α) (s : Serializer)
    : (l.foldl write (inputSize l.length s)).bytes
        =
      s.bytes ++ (sizeBytes l.length ++ l.flatMap encode) := by
  have hloop : ∀ s, (l.foldl write s).bytes = s.bytes ++ l.flatMap encode := by
    induction l with
    | nil => simp
    | cons x l ih =>
      intro s
      simp only [List.foldl_cons, List.flatMap_cons, ih, hwrite]
      simp
  rw [hloop]
  rw [inputSize_bytes]
  simp

theorem shl_bytes (t : CppType p) (v : t.carrier) (s : Serializer)
    : (shl t v s).bytes = s.bytes ++ encode t v := by
  induction t generalizing s with
  | scalar t => exact inputScalar_buf t v s.buf
  | string => exact List.append_assoc _ _ _
  | seq k t ih => exact writeAll_bytes _ _ (fun s x => ih x s) v s
  | set k t ih => exact writeAll_bytes _ _ (fun s x => ih x s) v s
  | pair a b iha ihb => simp [shl, encode, iha, ihb]
  | map k a b iha ihb =>
    have hpair : ∀ (s : Serializer) (x : a.carrier × b.carrier),
        (shl b x.2 (shl a x.1 s)).bytes = s.bytes ++ (encode a x.1 ++ encode b x.2) := by
      intro s x
      simp [iha, ihb]
    apply writeAll_bytes _ _ hpair v s
  | tuple ts ih => exact ih v s
  | nil => simp [shl, encode]
  | cons t ts iht ihts => simp [shl, encode, iht, ihts]

def Reads (read : Serializer → α × Serializer) (same : α → α → Prop) (v : α) (bytes : List Byte)
    : Prop :=
  ∀ (s : Serializer) (rest : List Byte), s.bytes = bytes ++ rest →
    same v (read s).1 ∧ (read s).2.bytes = rest

theorem Reads.pair {α β : Type} {readA : Serializer → α × Serializer}
    {readB : Serializer → β × Serializer} {sameA : α → α → Prop} {sameB : β → β → Prop} {a : α}
    {b : β} {bytesA bytesB : List Byte} (ha : Reads readA sameA a bytesA)
    (hb : Reads readB sameB b bytesB)
    : Reads
        (fun s => (((readA s).1, (readB (readA s).2).1), (readB (readA s).2).2))
        (fun x y => sameA x.1 y.1 ∧ sameB x.2 y.2)
        (a, b)
        (bytesA ++ bytesB) := by
  intro s rest hs
  have ha := ha s (bytesB ++ rest) (by simpa using hs)
  have hb := hb (readA s).2 rest ha.2
  exact ⟨⟨ha.1, hb.1⟩, hb.2⟩

theorem readLoop_succ {α β : Type} (size : Nat) (read : Serializer → α × Serializer)
    (store : α → β → β) (v : β) (s : Serializer)
    : readLoop (size + 1) read store v s
        =
      readLoop size read store (store (read s).1 v) (read s).2 :=
  rfl

theorem readLoop_keeps {α β : Type} {read : Serializer → α × Serializer} {store : α → β → β}
    {P : β → Serializer → Prop} (hstep : ∀ v s, P v s → P (store (read s).1 v) (read s).2)
    (size : Nat) {v : β} {s : Serializer} (init : P v s)
    : P (readLoop size read store v s).1 (readLoop size read store v s).2 := by
  induction size generalizing v s with
  | zero => exact init
  | succ size ih =>
    rw [readLoop_succ]
    apply ih (hstep v s init)

theorem readLoop_reads {α β : Type} (read : Serializer → α × Serializer) (store : α → β → β)
    (same : α → α → Prop) (encode : α → List Byte) (l : List α)
    (hread : ∀ x ∈ l, Reads read same x (encode x)) (v : β) (s : Serializer) (rest : List Byte)
    (hs : s.bytes = l.flatMap encode ++ rest)
    : ∃ l', List.Forall₂ same l l' ∧
        (readLoop l.length read store v s).1 = l'.foldl (fun v x => store x v) v ∧
        (readLoop l.length read store v s).2.bytes = rest := by
  induction l generalizing v s with
  | nil => exact ⟨[], by simp, rfl, by simpa [readLoop] using hs⟩
  | cons x l ih =>
    have hx := hread x (by simp) s (l.flatMap encode ++ rest) (by simpa using hs)
    obtain ⟨l', hsame, hstore, hrest⟩ := ih (fun y hy => hread y (List.mem_cons_of_mem _ hy))
      (store (read s).1 v) (read s).2 hx.2
    refine ⟨(read s).1 :: l', ?_, ?_, ?_⟩
    . apply List.Forall₂.cons hx.1 hsame
    . simpa [readLoop] using hstore
    . simpa [readLoop] using hrest

theorem readAll_reads {α β : Type} (read : Serializer → α × Serializer) (store : α → β → β)
    (same : α → α → Prop) (encode : α → List Byte) (l : List α) (hlen : l.length < 2 ^ 64)
    (hread : ∀ x ∈ l, Reads read same x (encode x)) (v : Nat → β) (s : Serializer)
    (rest : List Byte) (hs : s.bytes = sizeBytes l.length ++ l.flatMap encode ++ rest)
    : ∃ l', List.Forall₂ same l l' ∧
        (readLoop (outputSize s).1 read store (v (outputSize s).1) (outputSize s).2).1
          =
        l'.foldl (fun v x => store x v) (v l.length)
        ∧
        (readLoop (outputSize s).1 read store (v (outputSize s).1) (outputSize s).2).2.bytes
          =
        rest := by
  have hsize := outputSize_bytes l.length hlen s (l.flatMap encode ++ rest) (by simpa using hs)
  rw [hsize.1]
  apply readLoop_reads read store same encode l hread (v l.length) (outputSize s).2 rest hsize.2

theorem foldl_push_back {α : Type} (l v : List α)
    : l.foldl (fun v x => v ++ [x]) v = v ++ l := by
  induction l generalizing v with
  | nil => simp
  | cons x l ih => simp [ih]

theorem length_resize {α : Type} (size : Nat) (init : α) (v : List α)
    : (resize size init v).length = size := by
  unfold resize
  rw [List.length_append, List.length_take, List.length_replicate]
  omega

-- assigning to the elements one after the other leaves nothing of them
theorem readLoop_set {α : Type} (read : Serializer → α × Serializer) (pre post : List α)
    (s : Serializer)
    : let set x (iv : Nat × List α) := (iv.1 + 1, iv.2.set iv.1 x)
      let ((_, v), s') := readLoop post.length read set (pre.length, pre ++ post) s
      (v, s') = readLoop post.length read (fun x v => v ++ [x]) pre s := by
  induction post generalizing pre s with
  | nil => exact congrArg (·, s) (List.append_nil pre)
  | cons y post ih =>
    have ih := ih (pre ++ [(read s).1]) (read s).2
    rw [List.length_append, List.length_singleton, List.append_assoc] at ih
    simp only [List.length_cons, readLoop_succ]
    rw [List.set_append_right _ _ (Nat.le_refl _), Nat.sub_self, List.set_cons_zero]
    exact ih

theorem shr_vector (h : Placement) (t : CppType .type) (v : List t.carrier) (s : Serializer)
    : shr h (.seq .vector t) v s = shr h (.seq .list t) [] s := by
  have hset := readLoop_set (shr h t t.default) [] (resize (outputSize s).1 t.default v)
    (outputSize s).2
  rw [length_resize] at hset
  exact hset

-- lists and deques keep what they hold
theorem shr_seq_appends (h : Placement) {k : SeqKind} (hk : k ≠ .vector) (t : CppType .type)
    (v old : List t.carrier) (hlen : v.length < 2 ^ 64)
    (ih : ∀ x ∈ v, Reads (shr h t t.default) t.Same x (encode t x)) {s : Serializer}
    {rest : List Byte} (hs : s.bytes = sizeBytes v.length ++ v.flatMap (encode t) ++ rest)
    : ∃ v', List.Forall₂ t.Same v v' ∧ (shr h (.seq k t) old s).1 = old ++ v' ∧
        (shr h (.seq k t) old s).2.bytes = rest := by
  obtain ⟨v', hsame, hloop, hrest⟩ := readAll_reads (shr h t t.default)
    (fun x (v : List t.carrier) => v ++ [x]) t.Same (encode t) v hlen ih (fun _ => old) s rest hs
  rw [foldl_push_back] at hloop
  cases k with
  | vector => exact absurd rfl hk
  | list | deque => exact ⟨v', hsame, hloop, hrest⟩

theorem shr_vector_reads (h : Placement) (t : CppType .type) (v old : List t.carrier)
    (hlen : v.length < 2 ^ 64)
    (ih : ∀ x ∈ v, Reads (shr h t t.default) t.Same x (encode t x))
    : Reads (shr h (.seq .vector t) old) (List.Forall₂ t.Same) v
        (sizeBytes v.length ++ v.flatMap (encode t)) := by
  intro s rest hs
  have hlist : SeqKind.list ≠ .vector := by decide
  rcases shr_seq_appends h hlist t v [] hlen ih hs with ⟨v', hsame, hv, hrest⟩
  rw [shr_vector, hv]
  exact ⟨hsame, hrest⟩

theorem shr_seq_reads (h : Placement) (k : SeqKind) (t : CppType .type) (v : List t.carrier)
    (hlen : v.length < 2 ^ 64)
    (ih : ∀ x ∈ v, Reads (shr h t t.default) t.Same x (encode t x))
    : Reads (shr h (.seq k t) []) (List.Forall₂ t.Same) v
        (sizeBytes v.length ++ v.flatMap (encode t)) := by
  by_cases hk : k = .vector
  . subst hk
    apply shr_vector_reads h t v [] hlen ih
  . intro s rest hs
    rcases shr_seq_appends h hk t v [] hlen ih hs with ⟨v', hsame, hv, hrest⟩
    rw [hv]
    exact ⟨hsame, hrest⟩

theorem scalar_reads (t : Scalar) (v old : t.carrier)
    : Reads (fun s => (output (.scalar t) old s).2) Eq v (t.bytes v) := by
  intro s rest hs
  have hout := outputScalar_bytes t v s.buf rest hs
  exact ⟨hout.1.symm, hout.2⟩

theorem shr_set_reads (h : Placement) (k : SetKind) (t : CppType .type) (v : List t.carrier)
    (hlen : v.length < 2 ^ 64)
    (harr : CppType.Arranged k.unique k.ordered t.less t.equal id v)
    (hread : ∀ x ∈ v, Reads (fun s => (output t t.default s).2) Eq x (encode t x))
    : Reads (shr h (.set k t) []) (CppType.Same.sameElements k.ordered Eq) v
        (sizeBytes v.length ++ v.flatMap (encode t)) := by
  intro s rest hs
  obtain ⟨v', hsame, hloop, hrest⟩ := readAll_reads _
    (h.insert k.unique k.ordered t.less t.equal id) Eq (encode t) v hlen hread (fun _ => []) s rest
    hs
  have hinsert := h.foldl_insert_same k.unique k.ordered t.less t.equal id Eq (fun _ _ h => h) v v'
    hsame harr
  refine ⟨?_, hrest⟩
  exact hloop ▸ hinsert

theorem shr_map_reads (h : Placement) (k : MapKind) (a b : CppType .type)
    (hcomparable : a.comparable = true) (v : List (a.carrier × b.carrier)) (hlen : v.length < 2 ^ 64)
    (harr : CppType.Arranged k.unique k.ordered a.less a.equal Prod.fst v)
    (iha : ∀ x ∈ v, Reads (shr h a a.default) a.Same x.1 (encode a x.1))
    (ihb : ∀ x ∈ v, Reads (shr h b b.default) b.Same x.2 (encode b x.2))
    : Reads (shr h (.map k a b) [])
        (CppType.Same.sameElements k.ordered fun x y => a.Same x.1 y.1 ∧ b.Same x.2 y.2) v
        (sizeBytes v.length ++ v.flatMap fun x => encode a x.1 ++ encode b x.2) := by
  intro s rest hs
  obtain ⟨v', hsame, hloop, hrest⟩ := readAll_reads _
    (h.insert k.unique k.ordered a.less a.equal Prod.fst) _ _ v hlen
    (fun x hx => Reads.pair (iha x hx) (ihb x hx)) (fun _ => []) s rest hs
  have hinsert := h.foldl_insert_same k.unique k.ordered a.less a.equal Prod.fst _
    (fun x y hxy => a.eq_of_same hcomparable x.1 y.1 hxy.1) v v' hsame harr
  refine ⟨?_, hrest⟩
  exact hloop ▸ hinsert

-- what `operator<<` writes
def written (t : CppType p) (v : t.carrier) : List Byte :=
  (shl t v (new fun _ => 0)).bytes

theorem written_eq (t : CppType p) (v : t.carrier) : written t v = encode t v :=
  shl_bytes t v _

def RoundTrips (h : Placement) (t : CppType p) (v : t.carrier) : Prop :=
  Reads (shr h t t.default) t.Same v (written t v)

theorem roundTrips_iff (h : Placement) (t : CppType p) (v : t.carrier)
    : RoundTrips h t v ↔ Reads (shr h t t.default) t.Same v (encode t v) := by
  unfold RoundTrips
  rw [written_eq]

theorem stringFree_of_seq {k : SeqKind} {t : CppType .type}
    (h : (CppType.seq k t).stringFree = true) : t.stringFree = true := by
  unfold CppType.stringFree at h
  split at h <;> simp_all

theorem shr_reads (h : Placement) (t : CppType p) (hfree : t.stringFree = true) (v : t.carrier)
    (hwf : t.Wf v) : Reads (shr h t t.default) t.Same v (encode t v) := by
  induction t with
  | scalar t => exact scalar_reads t v t.default
  | string => simp [CppType.stringFree] at hfree
  | seq k t ih =>
    apply shr_seq_reads h k t v hwf.1
    intro x hx
    apply ih (stringFree_of_seq hfree) x (hwf.2 x hx)
  | set k t ih =>
    -- only sets of scalars are in the grammar, `output` reads nothing else
    cases t with
    | scalar t =>
      exact shr_set_reads h k (.scalar t) v hwf.1 hwf.2.2 fun x _ => scalar_reads t x t.default
    | _ => simp [CppType.stringFree] at hfree
  | pair a b iha ihb =>
    simp only [CppType.stringFree, Bool.and_eq_true] at hfree
    apply Reads.pair (iha hfree.1 v.1 hwf.1) (ihb hfree.2 v.2 hwf.2)
  | map k a b iha ihb =>
    simp only [CppType.stringFree, Bool.and_eq_true] at hfree
    exact shr_map_reads h k a b (a.comparable_of_keyable hfree.1.1) v hwf.1 hwf.2.2
      (fun x hx => iha hfree.1.2 x.1 (hwf.2.1 x hx).1)
      (fun x hx => ihb hfree.2 x.2 (hwf.2.1 x hx).2)
  | tuple ts ih => exact ih hfree v hwf
  | nil =>
    intro s rest hs
    exact ⟨trivial, hs⟩
  | cons t ts iht ihts =>
    simp only [CppType.stringFree, Bool.and_eq_true] at hfree
    apply Reads.pair (iht hfree.1 v.1 hwf.1) (ihts hfree.2 v.2 hwf.2)

end Serializer
end Fish
