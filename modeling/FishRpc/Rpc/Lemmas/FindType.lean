import FishRpc.Lib.PrefixCode
import FishRpc.Rpc.Impl.FindType

/-!
This module contains the types that a signature stands for. `findType` descends along the first
parameters only and stops without a word at a tuple, so the signature is spelled along this path.
-/

namespace Fish

open PrefixCode

-- there is a type id for every type but `bool`
def CppType.enumerated : CppType p → Bool
  | .scalar s => s != .bool
  | .string => true
  | .seq _ t => t.enumerated
  | .set _ t => t.enumerated
  | .pair a b => a.enumerated && b.enumerated
  | .map _ a b => a.enumerated && b.enumerated
  | .tuple ts => ts.enumerated
  | .nil => true
  | .cons t ts => t.enumerated && ts.enumerated

-- the ids of the containers on the way to the innermost first parameter
def keyPath : CppType p → List Byte
  | .seq k t => findtype (.seq k t) :: keyPath t
  | .set k t => findtype (.set k t) :: keyPath t
  | .pair a b => findtype (.pair a b) :: keyPath a
  | .map k a b => findtype (.map k a b) :: keyPath a
  | _ => []

-- a simple type or nothing, where the path ends in a tuple
def innermost : CppType p → Option Byte
  | .seq _ t => innermost t
  | .set _ t => innermost t
  | .pair a _ => innermost a
  | .map _ a _ => innermost a
  | .scalar s => some (findtype (.scalar s))
  | .string => some (findtype .string)
  | _ => none

-- the ids of the types with two parameters
def twoParams (id : Byte) : Bool :=
  TypeId.pair.value.ule id && id.ule TypeId.unorderedMultimap.value

def signature (t : CppType .type) : List Byte :=
  spell twoParams (keyPath t) (innermost t).toList

/--
Two types some of whose signatures cannot be told apart when anything may follow them.
-/
def Confusable (t u : CppType .type) : Prop :=
  match innermost t, innermost u with
  | some x, some y => keyPath t = keyPath u ∧ x = y
  | none, some _ => spell twoParams (keyPath t) [] <+: keyPath u
  | some _, none => spell twoParams (keyPath u) [] <+: keyPath t
  | none, none =>
    Overlap (spell twoParams (keyPath t) []) (spell twoParams (keyPath u) [])

theorem twoParams_seq (k : SeqKind) (t : CppType .type)
    : twoParams (findtype (.seq k t)) = false := by
  cases k <;> rfl

theorem twoParams_set (k : SetKind) (t : CppType .type)
    : twoParams (findtype (.set k t)) = false := by
  cases k <;> rfl

theorem findtype_scalar_ne_zero {s : Scalar} (h : s ≠ .bool) : findtype (.scalar s) ≠ 0 := by
  cases s with
  | bool => exact absurd rfl h
  | _ => decide

theorem signature_pair (a b : CppType .type)
    : signature (.pair a b) = findtype (.pair a b) :: (signature a ++ signature a) :=
  rfl

theorem signature_map (k : MapKind) (a b : CppType .type)
    : signature (.map k a b) = findtype (.map k a b) :: (signature a ++ signature a) := by
  cases k <;> rfl

/--
`findType` appends the signature of an enumerated type.
-/
theorem findType_eq (t : CppType .type) (h : t.enumerated = true) (paraMes : List Byte)
    : findType t paraMes = some (paraMes ++ signature t) := by
  match t with
  | .scalar s =>
    have hs : s ≠ .bool := by simpa [CppType.enumerated] using h
    unfold findType
    rw [if_neg (findtype_scalar_ne_zero hs)]
    rfl
  | .string => rfl
  | .seq k t =>
    unfold findType signature keyPath innermost spell
    rw [findType_eq t h]
    rw [twoParams_seq]
    rw [List.append_assoc]
    rfl
  | .set k t =>
    unfold findType signature keyPath innermost spell
    rw [findType_eq t h]
    rw [twoParams_set]
    rw [List.append_assoc]
    rfl
  | .pair a b =>
    have ha : a.enumerated = true := (Bool.and_eq_true_iff.mp h).1
    unfold findType
    rw [signature_pair]
    simp [findType_eq a ha]
  | .map k a b =>
    have ha : a.enumerated = true := (Bool.and_eq_true_iff.mp h).1
    unfold findType
    rw [signature_map]
    simp [findType_eq a ha]
  | .tuple ts => exact congrArg some (List.append_nil paraMes).symm

theorem keyPath_lt (t : CppType p) : ∀ id ∈ keyPath t, id < TypeId.int8.value := by
  match t with
  | .seq k t =>
    rw [keyPath, List.forall_mem_cons]
    exact ⟨by cases k <;> simp [findtype, TypeId.value], keyPath_lt t⟩
  | .set k t =>
    rw [keyPath, List.forall_mem_cons]
    exact ⟨by cases k <;> simp [findtype, TypeId.value], keyPath_lt t⟩
  | .pair a b =>
    rw [keyPath, List.forall_mem_cons]
    exact ⟨by simp [findtype, TypeId.value], keyPath_lt a⟩
  | .map k a b =>
    rw [keyPath, List.forall_mem_cons]
    exact ⟨by cases k <;> simp [findtype, TypeId.value], keyPath_lt a⟩
  | .scalar _ | .string | .tuple _ | .nil | .cons _ _ =>
    intro id hid
    cases hid

theorem innermost_ge (t : CppType p) (h : t.enumerated = true) {id : Byte}
    (hid : innermost t = some id) : TypeId.int8.value ≤ id := by
  match t with
  | .seq _ t => exact innermost_ge t h hid
  | .set _ t => exact innermost_ge t h hid
  | .pair a _ => exact innermost_ge a (Bool.and_eq_true_iff.mp h).1 hid
  | .map _ a _ => exact innermost_ge a (Bool.and_eq_true_iff.mp h).1 hid
  | .scalar s =>
    cases hid
    cases s with
    | bool => cases h
    | _ => decide
  | .string =>
    cases hid
    decide
  | .tuple _ | .nil | .cons _ _ => cases hid

theorem not_mem_keyPath {t u : CppType .type} (h : t.enumerated = true) {id : Byte}
    (hid : innermost t = some id) : id ∉ keyPath u := by
  intro hmem
  have hlt := keyPath_lt u id hmem
  have hge := innermost_ge t h hid
  exact absurd hge (BitVec.not_le.mpr hlt)

theorem overlap_signature_iff {t u : CppType .type} (ht : t.enumerated = true)
    (hu : u.enumerated = true) : Overlap (signature t) (signature u) ↔ Confusable t u := by
  unfold signature Confusable
  cases hx : innermost t with
  | none =>
    cases hy : innermost u with
    | none => exact Iff.rfl
    | some y => apply overlap_spell_nil_iff (not_mem_keyPath hu hy)
  | some x =>
    cases hy : innermost u with
    | none =>
      rw [overlap_comm]
      apply overlap_spell_nil_iff (not_mem_keyPath ht hx)
    | some y => apply overlap_spell_iff (not_mem_keyPath ht hx) (not_mem_keyPath hu hy)

/--
Two different types are told apart by their signatures exactly if they are not confusable.
-/
theorem readable_iff_not_confusable (t u : CppType .type) (ht : t.enumerated = true)
    (hu : u.enumerated = true)
    : ∃ sigT sigU, findType t [] = some sigT ∧ findType u [] = some sigU ∧
        ((∀ r s, sigT ++ r = sigU ++ s → t = u ∧ r = s) ↔ t = u ∨ ¬Confusable t u) := by
  refine ⟨signature t, signature u, findType_eq t ht [], findType_eq u hu [], ?_⟩
  rw [← overlap_signature_iff ht hu]
  rw [overlap_iff]
  constructor
  . intro h
    apply Classical.byContradiction
    intro hnot
    rcases not_or.mp hnot with ⟨hne, hoverlap⟩
    rcases Classical.not_not.mp hoverlap with ⟨r, s, heq⟩
    exact hne (h r s heq).1
  . rintro (heq | hnone) r s hrs
    . subst heq
      exact ⟨rfl, List.append_cancel_left hrs⟩
    . exact absurd ⟨r, s, hrs⟩ hnone

theorem readable_iff_not_confusable_pair
    : ∃ sigT sigU,
        findType (.pair (.scalar .int8) .string) [] = some sigT ∧
        findType (.pair (.scalar .int8) (.scalar .int16)) [] = some sigU ∧
        ¬∀ r s, sigT ++ r = sigU ++ s →
          CppType.pair (.scalar .int8) .string = .pair (.scalar .int8) (.scalar .int16) ∧
            r = s := by
  rcases readable_iff_not_confusable (.pair (.scalar .int8) .string)
    (.pair (.scalar .int8) (.scalar .int16)) rfl rfl with ⟨sigT, sigU, hT, hU, hiff⟩
  refine ⟨sigT, sigU, hT, hU, ?_⟩
  rw [hiff]
  rintro (heq | hnot)
  . cases heq
  . exact hnot ⟨rfl, rfl⟩

theorem not_readable_map
    : ¬∀ (t u : CppType .type) sigT sigU r s, t.enumerated = true → u.enumerated = true →
        findType t [] = some sigT → findType u [] = some sigU → sigT ++ r = sigU ++ s →
          t = u ∧ r = s := by
  intro h
  have hsame := h (.map .map (.scalar .int32) .string) (.map .map (.scalar .int32) (.scalar .int8))
    [9, 66, 66] [9, 66, 66] [] [] rfl rfl (by decide) (by decide) rfl
  cases hsame.1

end Fish
