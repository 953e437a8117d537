import FishRpc.Rpc.Lemmas.Serializer

/-!
This module contains the converse of the round trip: what is decoded from received bytes is encoded
as the same bytes again. `Fed` says of a decoding that each of its reads finds the bytes it asks
for, read by read as in `shr` itself.
-/

namespace Fish

open LittleEndian

def Scalar.width : Scalar → Nat
  | bool | int8 | uint8 => 1
  | int16 | uint16 => 2
  | int32 | uint32 | float => 4
  | int64 | uint64 | double => 8

def Scalar.isInteger : Scalar → Bool
  | bool | float | double => false
  | _ => true

-- fixed-width integers under sequences, pairs and tuples
def CppType.integral : CppType p → Bool
  | scalar s => s.isInteger
  | string => false
  | seq _ t => t.integral
  | set _ _ => false
  | pair a b => a.integral && b.integral
  | map _ _ _ => false
  | tuple ts => ts.integral
  | nil => true
  | cons t ts => t.integral && ts.integral

namespace Serializer

def OutputFed : CppType .type → Serializer → Prop
  | .scalar t, s => t.width ≤ s.bytes.length
  | .string, s =>
    sizeofSizeT ≤ s.bytes.length ∧
    (s.buf.outputFixed sizeofSizeT).1.toNat ≤ (s.buf.outputFixed sizeofSizeT).2.buf.length
  | _, _ => True

def LoopFed (size : Nat) (read : Serializer → α × Serializer) (fed : Serializer → Prop)
    (s : Serializer) : Prop :=
  ∀ i < size, fed ((fun s => (read s).2)^[i] s)

instance (t : CppType .type) (s : Serializer) : Decidable (OutputFed t s) := by
  cases t <;> (unfold OutputFed; infer_instance)

instance (size : Nat) (read : Serializer → α × Serializer) (fed : Serializer → Prop)
    [∀ s, Decidable (fed s)] (s : Serializer) : Decidable (LoopFed size read fed s) :=
  inferInstanceAs (Decidable (∀ i < size, _))

def Fed (h : Placement) : (t : CppType p) → t.carrier → Serializer → Prop
  | .scalar t, _, s => OutputFed (.scalar t) s
  | .string, _, s => OutputFed .string s
  | .seq _k t, _, s =>
    OutputFed (.scalar .uint64) s ∧
    LoopFed (outputSize s).1 (shr h t t.default) (Fed h t t.default) (outputSize s).2
  | .set _k t, _, s =>
    OutputFed (.scalar .uint64) s ∧
    LoopFed (outputSize s).1 (fun s => (output t t.default s).2) (OutputFed t) (outputSize s).2
  | .pair a b, v, s => Fed h a v.1 s ∧ Fed h b v.2 (shr h a v.1 s).2
  | .map _k a b, _, s =>
    OutputFed (.scalar .uint64) s ∧
    LoopFed (outputSize s).1
      (fun s =>
        let (first, s) := shr h a a.default s
        let (second, s) := shr h b b.default s
        ((first, second), s))
      (fun s => Fed h a a.default s ∧ Fed h b b.default (shr h a a.default s).2)
      (outputSize s).2
  | .tuple ts, v, s => Fed h ts v s
  | .nil, _, _ => True
  | .cons t ts, v, s => Fed h t v.1 s ∧ Fed h ts v.2 (shr h t v.1 s).2

-- the bytes taken by a read that is fed are those of the value it returns
def Rebuilds (read : Serializer → α × Serializer) (fed : Serializer → Prop)
    (encode : α → List Byte) : Prop :=
  ∀ s, fed s → s.bytes = encode (read s).1 ++ (read s).2.bytes

theorem Rebuilds.pair {readA : Serializer → α × Serializer} {readB : Serializer → β × Serializer}
    {fedA fedB : Serializer → Prop} {encodeA : α → List Byte} {encodeB : β → List Byte}
    (ha : Rebuilds readA fedA encodeA) (hb : Rebuilds readB fedB encodeB)
    : Rebuilds
        (fun s => (((readA s).1, (readB (readA s).2).1), (readB (readA s).2).2))
        (fun s => fedA s ∧ fedB (readA s).2)
        (fun x => encodeA x.1 ++ encodeB x.2) := by
  intro s hfed
  have hfirst := ha s hfed.1
  have hsecond := hb (readA s).2 hfed.2
  rw [hfirst, hsecond, ← List.append_assoc]

theorem outputScalar_rebuilds (t : Scalar) (ht : t ≠ .bool) (buf : SeriBuf)
    (hlen : t.width ≤ buf.buf.length)
    : buf.buf = t.bytes (outputScalar t buf).1 ++ (outputScalar t buf).2.buf := by
  cases t with
  | bool => exact absurd rfl ht
  | int8 | uint8 => exact buf.outputFixed_rebuilds 1 hlen
  | int16 | uint16 => exact buf.outputFixed_rebuilds 2 hlen
  | int32 | uint32 | float => exact buf.outputFixed_rebuilds 4 hlen
  | int64 | uint64 | double => exact buf.outputFixed_rebuilds 8 hlen

theorem scalar_rebuilds (h : Placement) (t : Scalar) (ht : t ≠ .bool) (old : t.carrier)
    : Rebuilds (shr h (.scalar t) old) (Fed h (.scalar t) old) t.bytes :=
  fun s hfed => outputScalar_rebuilds t ht s.buf hfed

theorem outputSize_rebuilds : Rebuilds outputSize (OutputFed (.scalar .uint64)) sizeBytes := by
  intro s hfed
  have hout := outputScalar_rebuilds .uint64 (by decide) s.buf hfed
  have hsize : sizeBytes (outputSize s).1 = toBytes 8 (outputSize s).1 := by
    unfold sizeBytes
    rw [BitVec.toNat_ofNat]
    have hlt : (outputSize s).1 < 2 ^ 64 := BitVec.isLt _
    rw [Nat.mod_eq_of_lt hlt]
    rfl
  rw [hsize]
  exact hout

theorem readLoop_rebuilds {α β : Type} {read : Serializer → α × Serializer}
    {fed : Serializer → Prop} {encode : α → List Byte} (hread : Rebuilds read fed encode)
    (store : α → β → β) (size : Nat) (v : β) (s : Serializer) (hfed : LoopFed size read fed s)
    : ∃ l : List α, l.length = size ∧
        (readLoop size read store v s).1 = l.foldl (fun v x => store x v) v ∧
        s.bytes = l.flatMap encode ++ (readLoop size read store v s).2.bytes := by
  induction size generalizing v s with
  | zero => exact ⟨[], rfl, rfl, rfl⟩
  | succ size ih =>
    have hfirst := hread s (hfed 0 (Nat.succ_pos size))
    have hrest : LoopFed size read fed (read s).2 := by
      intro i hi
      apply hfed (i + 1) (Nat.succ_lt_succ hi)
    rcases ih (store (read s).1 v) (read s).2 hrest with ⟨l, hlen, hloop, hbytes⟩
    refine ⟨(read s).1 :: l, ?_, ?_, ?_⟩
    . rw [List.length_cons, hlen]
    . exact hloop
    . rw [hfirst, hbytes]
      rw [List.flatMap_cons, List.append_assoc]
      rfl

theorem elements_rebuild {t : CppType .type} (k : SeqKind) {l : List t.carrier}
    {result : List t.carrier × Serializer} {s s' : Serializer} (hresult : result.1 = l)
    (hsize : s.bytes = sizeBytes l.length ++ s'.bytes)
    (hbytes : s'.bytes = l.flatMap (encode t) ++ result.2.bytes)
    : s.bytes = encode (.seq k t) result.1 ++ result.2.bytes := by
  rw [hsize, hbytes, ← List.append_assoc]
  rw [hresult]
  rfl

theorem seq_rebuilds (h : Placement) (k : SeqKind) (t : CppType .type)
    (ih : Rebuilds (shr h t t.default) (Fed h t t.default) (encode t))
    : Rebuilds (shr h (.seq k t) []) (Fed h (.seq k t) []) (encode (.seq k t)) := by
  intro s hfed
  have hsize := outputSize_rebuilds s hfed.1
  rcases readLoop_rebuilds ih (fun x (v : List t.carrier) => v ++ [x]) _ [] _ hfed.2 with
    ⟨l, hlen, hloop, hbytes⟩
  rw [foldl_push_back, List.nil_append] at hloop
  rw [← hlen] at hsize
  cases k with
  | list | deque => exact elements_rebuild _ hloop hsize hbytes
  | vector =>
    rw [shr_vector]
    exact elements_rebuild .list hloop hsize hbytes

/--
Bytes that are decoded without a read running short are the encoding of the value they give.
-/
theorem shr_rebuilds (h : Placement) (t : CppType p) (ht : t.integral = true)
    : Rebuilds (shr h t t.default) (Fed h t t.default) (encode t) := by
  induction t with
  | scalar t =>
    apply scalar_rebuilds h t _ t.default
    rintro rfl
    cases ht
  | string => cases ht
  | seq k t ih => exact seq_rebuilds h k t (ih ht)
  | set k t ih => cases ht
  | pair a b iha ihb =>
    simp only [CppType.integral, Bool.and_eq_true] at ht
    exact Rebuilds.pair (iha ht.1) (ihb ht.2)
  | map k a b iha ihb => cases ht
  | tuple ts ih => exact ih ht
  | nil => exact fun s _ => rfl
  | cons t ts iht ihts =>
    simp only [CppType.integral, Bool.and_eq_true] at ht
    exact Rebuilds.pair (iht ht.1) (ihts ht.2)

/--
A received value that is sent on is sent with the bytes it was received with.
-/
theorem reencode (h : Placement) (t : CppType p) (ht : t.integral = true) (s : Serializer)
    (hfed : Fed h t t.default s) (stack : Stack)
    : s.bytes
        =
      (shl t (shr h t t.default s).1 (new stack)).bytes ++ (shr h t t.default s).2.bytes := by
  rw [shl_bytes]
  exact shr_rebuilds h t ht s hfed

def int8s : CppType .type := .seq .vector (.scalar .int8)

def receivedInt8s : Serializer := ⟨⟨[2, 0, 0, 0, 0, 0, 0, 0, 5, 6, 7], fun _ => 0⟩⟩

theorem reencode_int8s
    : receivedInt8s.bytes
        =
      (shl int8s (shr .front int8s int8s.default receivedInt8s).1 (new fun _ => 0)).bytes ++
        (shr .front int8s int8s.default receivedInt8s).2.bytes := by
  have hfed : OutputFed (.scalar .uint64) receivedInt8s ∧
      LoopFed (outputSize receivedInt8s).1 (shr .front (.scalar .int8) 0#8)
        (OutputFed (.scalar .int8)) (outputSize receivedInt8s).2 := by
    decide +kernel
  exact reencode .front int8s rfl receivedInt8s hfed fun _ => 0

end Serializer
end Fish
