import FishRpc.Lib.SelfDelimiting
import FishRpc.Rpc.Lemmas.SerializerReencode

/-!
This module contains the unique readability of the wire format for all types of the grammar,
strings and sets of compound elements included, which `operator>>` does not read back.
-/

namespace Fish

open LittleEndian

theorem toBytes_selfDelimiting (n : Nat) : SelfDelimiting (fun v => v < 256 ^ n) (toBytes n) := by
  apply SelfDelimiting.of_length (length_toBytes n)
  intro v w hv hw heq
  rw [← ofBytes_toBytes_of_lt hv, ← ofBytes_toBytes_of_lt hw]
  rw [heq]

theorem sizeBytes_eq {size : Nat} (h : size < 2 ^ 64) : sizeBytes size = toBytes 8 size := by
  unfold sizeBytes
  rw [BitVec.toNat_ofNat, Nat.mod_eq_of_lt h]
  rfl

theorem sizeBytes_selfDelimiting : SelfDelimiting (fun size => size < 2 ^ 64) sizeBytes := by
  intro v w r s hv hw heq
  rw [sizeBytes_eq hv, sizeBytes_eq hw] at heq
  exact toBytes_selfDelimiting 8 v w r s hv hw heq

theorem Scalar.length_bytes (t : Scalar) (v : t.carrier) : (t.bytes v).length = t.width := by
  cases t <;> exact length_toBytes _ _

theorem toBytes_toNat_inj (n : Nat) {v w : BitVec (8 * n)}
    (h : toBytes n v.toNat = toBytes n w.toNat) : v = w := by
  have hlt (x : BitVec (8 * n)) : x.toNat < 256 ^ n := by
    have := x.isLt
    rwa [Nat.pow_mul] at this
  apply BitVec.eq_of_toNat_eq
  rw [← ofBytes_toBytes_of_lt (hlt v), ← ofBytes_toBytes_of_lt (hlt w)]
  rw [h]

theorem Scalar.bytes_inj (t : Scalar) {v w : t.carrier} (h : t.bytes v = t.bytes w) : v = w := by
  cases t with
  | bool =>
    cases v <;> cases w <;> first | rfl | cases h
  | int8 | uint8 => exact toBytes_toNat_inj 1 h
  | int16 | uint16 => exact toBytes_toNat_inj 2 h
  | int32 | uint32 | float => exact toBytes_toNat_inj 4 h
  | int64 | uint64 | double => exact toBytes_toNat_inj 8 h

namespace Serializer

theorem counted_selfDelimiting {α : Type} {valid : α → Prop} {encode : α → List Byte}
    (h : SelfDelimiting valid encode)
    : SelfDelimiting (fun v : List α => v.length < 2 ^ 64 ∧ ∀ x ∈ v, valid x)
        (fun v => sizeBytes v.length ++ v.flatMap encode) :=
  sizeBytes_selfDelimiting.counted h

theorem string_selfDelimiting
    : SelfDelimiting (CppType.Wf .string) (encode .string) := by
  intro v w r s hv hw heq
  have hbytes (v : List Byte) (hv : v.length < 2 ^ 64)
      : encode .string v = sizeBytes v.length ++ v.flatMap fun x => [x] := by
    rw [List.flatMap_singleton', sizeBytes_eq hv]
    rfl
  rw [hbytes v hv, hbytes w hw] at heq
  apply counted_selfDelimiting SelfDelimiting.singleton v w r s _ _ heq
  . exact ⟨hv, fun _ _ => trivial⟩
  . exact ⟨hw, fun _ _ => trivial⟩

theorem encode_selfDelimiting (t : CppType p) : SelfDelimiting t.Wf (encode t) := by
  induction t with
  | scalar t =>
    apply SelfDelimiting.of_length t.length_bytes
    intro v w _ _ heq
    apply t.bytes_inj heq
  | string => exact string_selfDelimiting
  | seq k t ih => exact counted_selfDelimiting ih
  | set k t ih => exact (counted_selfDelimiting ih).mono fun v hv => ⟨hv.1, hv.2.1⟩
  | pair a b iha ihb => exact iha.pair ihb
  | map k a b iha ihb =>
    exact (counted_selfDelimiting (iha.pair ihb)).mono fun v hv => ⟨hv.1, hv.2.1⟩
  | tuple ts ih => exact ih
  | nil => exact fun v w r s _ _ heq => ⟨rfl, heq⟩
  | cons t ts iht ihts => exact iht.pair ihts

-- one `operator<<` after the other
def shlAll (vs : List (Sigma (@CppType.carrier .type))) (s : Serializer) : Serializer :=
  vs.foldl (fun s v => shl v.1 v.2 s) s

theorem shlAll_bytes (vs : List (Sigma (@CppType.carrier .type))) (s : Serializer)
    : (shlAll vs s).bytes = s.bytes ++ vs.flatMap fun v => encode v.1 v.2 := by
  induction vs generalizing s with
  | nil => exact (List.append_nil _).symm
  | cons v vs ih =>
    have htail := ih (shl v.1 v.2 s)
    rw [shl_bytes, List.append_assoc] at htail
    exact htail

/--
Two sequences of values of the same types that are written behind the same bytes differ in what is
written, whatever comes after them: the values and the end of the last one can be told from the
bytes. In particular a sequence that is cut off is never taken for another one.
-/
theorem shlAll_unique (vs ws : List (Sigma (@CppType.carrier .type)))
    (htypes : vs.map Sigma.fst = ws.map Sigma.fst) (hvs : ∀ v ∈ vs, v.1.Wf v.2)
    (hws : ∀ w ∈ ws, w.1.Wf w.2) (s s' : Serializer) (hold : s.bytes = s'.bytes)
    (rest rest' : List Byte)
    (heq : (shlAll vs s).bytes ++ rest = (shlAll ws s').bytes ++ rest')
    : vs = ws ∧ rest = rest' := by
  rw [shlAll_bytes, shlAll_bytes, hold, List.append_assoc, List.append_assoc] at heq
  apply SelfDelimiting.stream encode_selfDelimiting htypes hvs hws (List.append_cancel_left heq)

def pairs : CppType .type := .set .multiset (.pair .string (.scalar .bool))

theorem shlAll_unique_pairs
    : let vs : List (Sigma (@CppType.carrier .type)) :=
        [⟨.string, ([1] : List Byte)⟩, ⟨pairs, [(([2, 3] : List Byte), true)]⟩]
      vs = vs ∧ ([4] : List Byte) = [4] := by
  intro vs
  have hvs : ∀ v ∈ vs, v.1.Wf v.2 := by
    intro v hv
    rcases List.mem_cons.mp hv with rfl | hv
    . exact (by decide : 1 < 2 ^ 64)
    . rcases List.mem_singleton.mp hv with rfl
      refine ⟨(by decide : 1 < 2 ^ 64), ?_, List.pairwise_singleton _ _⟩
      intro x hx
      rcases List.mem_singleton.mp hx with rfl
      exact ⟨(by decide : 2 < 2 ^ 64), trivial⟩
  exact shlAll_unique vs vs rfl hvs hvs (new fun _ => 0) (new fun _ => 0) rfl [4] [4] rfl

end Serializer
end Fish
