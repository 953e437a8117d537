import FishRpc.Rpc.Impl.CppType
import Mathlib.Data.List.Forall2

/-!
This module contains the properties of the C++ types that can be keys of ordered containers and of
the insertion into associative containers.
-/

namespace Fish

theorem ult_lawful (w : Nat) : LawfulLess (BitVec.ult : BitVec w → BitVec w → Bool) := by
  apply LawfulLess.of
  . simp [BitVec.ult]
  . intro a b c hab hbc
    simp only [BitVec.ult, decide_eq_true_eq] at *
    omega
  . intro a b hab hba
    apply BitVec.eq_of_toNat_eq
    simp only [BitVec.ult, decide_eq_false_iff_not] at *
    omega

theorem slt_lawful (w : Nat) : LawfulLess (BitVec.slt : BitVec w → BitVec w → Bool) := by
  apply LawfulLess.of
  . simp [BitVec.slt]
  . intro a b c hab hbc
    simp only [BitVec.slt, decide_eq_true_eq] at *
    omega
  . intro a b hab hba
    apply BitVec.eq_of_toInt_eq
    simp only [BitVec.slt, decide_eq_false_iff_not] at *
    omega

theorem Scalar.less_lawful (s : Scalar) (h : s.isFloat = false) : LawfulLess s.less := by
  cases s with
  | bool =>
    apply LawfulLess.of
    . exact (by decide : ∀ a : Bool, (!a && a) = false)
    . exact (by decide : ∀ a b c : Bool, (!a && b) = true → (!b && c) = true → (!a && c) = true)
    . exact (by decide : ∀ a b : Bool, (!a && b) = false → (!b && a) = false → a = b)
  | int8 | int16 | int32 | int64 => exact slt_lawful _
  | uint8 | uint16 | uint32 | uint64 => exact ult_lawful _
  | float | double => simp [isFloat] at h

theorem Scalar.equal_iff (s : Scalar) (h : s.isFloat = false) (v w : s.carrier)
    : s.equal v w = true ↔ v = w := by
  cases s with
  | float | double => cases h
  | _ => exact beq_iff_eq

namespace CppType

theorem less_lawful (t : CppType p) (h : t.keyable = true) : LawfulLess t.less := by
  induction t with
  | scalar s => exact s.less_lawful (by simpa [keyable] using h)
  | string => exact listLess_lawful (ult_lawful 8)
  | seq k t ih => exact listLess_lawful (ih h)
  | set k t ih =>
    simp only [keyable, Bool.and_eq_true] at h
    apply listLess_lawful (ih h.2)
  | pair a b iha ihb =>
    simp only [keyable, Bool.and_eq_true] at h
    apply pairLess_lawful (iha h.1) (ihb h.2)
  | map k a b iha ihb =>
    simp only [keyable, Bool.and_eq_true] at h
    apply listLess_lawful (pairLess_lawful (iha h.1.2) (ihb h.2))
  | tuple ts ih => exact ih h
  | nil =>
    apply LawfulLess.of
    . intros; rfl
    . intro _ _ _ h
      simp [less] at h
    . intros; rfl
  | cons t ts iht ihts =>
    simp only [keyable, Bool.and_eq_true] at h
    apply pairLess_lawful (iht h.1) (ihts h.2)

theorem eq_of_forall₂ {α : Type} {same : α → α → Prop} (h : ∀ x y, same x y → x = y) {l l' : List α}
    (hl : List.Forall₂ same l l') : l = l' := by
  have heq := hl.imp h
  rwa [List.forall₂_eq_eq_eq] at heq

theorem eq_of_same (t : CppType p) (h : t.comparable = true) (v w : t.carrier) (hs : t.Same v w)
    : v = w := by
  induction t with
  | scalar s => exact hs
  | string => exact hs
  | seq k t ih => exact eq_of_forall₂ (ih h) hs
  | set k t ih =>
    simp only [comparable, Bool.and_eq_true] at h
    simp only [Same, Same.sameElements, h.1, ↓reduceIte] at hs
    apply eq_of_forall₂ (ih h.2) hs
  | pair a b iha ihb =>
    simp only [comparable, Bool.and_eq_true] at h
    apply Prod.ext (iha h.1 _ _ hs.1) (ihb h.2 _ _ hs.2)
  | map k a b iha ihb =>
    simp only [comparable, Bool.and_eq_true] at h
    simp only [Same, Same.sameElements, h.1.1, ↓reduceIte] at hs
    apply eq_of_forall₂ _ hs
    rintro x y ⟨hfirst, hsecond⟩
    apply Prod.ext (iha h.1.2 _ _ hfirst) (ihb h.2 _ _ hsecond)
  | tuple ts ih => exact ih h v w hs
  | nil => rfl
  | cons t ts iht ihts =>
    simp only [comparable, Bool.and_eq_true] at h
    apply Prod.ext (iht h.1 _ _ hs.1) (ihts h.2 _ _ hs.2)

theorem comparable_of_keyable (t : CppType p) (h : t.keyable = true) : t.comparable = true := by
  induction t with
  | scalar s => rfl
  | string => rfl
  | seq k t ih => exact ih h
  | set k t ih =>
    simp only [keyable, comparable, Bool.and_eq_true] at h ⊢
    exact ⟨h.1, ih h.2⟩
  | pair a b iha ihb =>
    simp only [keyable, comparable, Bool.and_eq_true] at h ⊢
    exact ⟨iha h.1, ihb h.2⟩
  | map k a b iha ihb =>
    simp only [keyable, comparable, Bool.and_eq_true] at h ⊢
    exact ⟨⟨h.1.1, iha h.1.2⟩, ihb h.2⟩
  | tuple ts ih => exact ih h
  | nil => rfl
  | cons t ts iht ihts =>
    simp only [keyable, comparable, Bool.and_eq_true] at h ⊢
    exact ⟨iht h.1, ihts h.2⟩

theorem listEqual_iff {α : Type} {eq : α → α → Bool} (h : ∀ x y, eq x y = true ↔ x = y)
    (l l' : List α) : equal.listEqual eq l l' = true ↔ l = l' := by
  induction l generalizing l' with
  | nil => cases l' <;> simp [equal.listEqual]
  | cons x l ih =>
    cases l' with
    | nil => simp [equal.listEqual]
    | cons y l' => simp [equal.listEqual, h, ih]

theorem pairEqual_iff {α β : Type} {eqA : α → α → Bool} {eqB : β → β → Bool}
    (ha : ∀ x y, eqA x y = true ↔ x = y) (hb : ∀ x y, eqB x y = true ↔ x = y) (x y : α × β)
    : (eqA x.1 y.1 && eqB x.2 y.2) = true ↔ x = y := by
  rw [Bool.and_eq_true, ha, hb]
  exact Prod.ext_iff.symm

theorem equal_iff (t : CppType p) (h : t.keyable = true) (v w : t.carrier)
    : t.equal v w = true ↔ v = w := by
  induction t with
  | scalar s => exact s.equal_iff (by simpa [keyable] using h) v w
  | string => exact beq_iff_eq
  | seq k t ih => exact listEqual_iff (ih h) v w
  | set k t ih =>
    simp only [keyable, Bool.and_eq_true] at h
    exact listEqual_iff (ih h.2) v w
  | pair a b iha ihb =>
    simp only [keyable, Bool.and_eq_true] at h
    exact pairEqual_iff (iha h.1) (ihb h.2) v w
  | map k a b iha ihb =>
    simp only [keyable, Bool.and_eq_true] at h
    exact listEqual_iff (pairEqual_iff (iha h.1.2) (ihb h.2)) v w
  | tuple ts ih => exact ih h v w
  | nil => exact iff_of_true rfl rfl
  | cons t ts iht ihts =>
    simp only [keyable, Bool.and_eq_true] at h
    exact pairEqual_iff (iht h.1) (ihts h.2) v w

variable {α κ : Type}

theorem keys_eq {key : α → κ} {same : α → α → Prop} (hkey : ∀ x y, same x y → key x = key y)
    {l l' : List α} (hsame : List.Forall₂ same l l') : l.map key = l'.map key := by
  apply eq_of_forall₂ (fun _ _ h => h)
  rw [List.forall₂_map_left_iff, List.forall₂_map_right_iff]
  apply hsame.imp hkey

theorem arranged_map (unique ordered : Bool) (less equal : κ → κ → Bool) (key : α → κ) (l : List α)
    : Arranged unique ordered less equal id (l.map key)
        ↔
      Arranged unique ordered less equal key l := by
  cases unique <;> cases ordered <;> simp [Arranged, List.pairwise_map]

end CppType

namespace Placement

variable {α κ : Type}

theorem insert_multi_perm (h : Placement) (ordered : Bool) {less equal : κ → κ → Bool}
    {key : α → κ} (x : α) (l : List α)
    : (h.insert false ordered less equal key x l).Perm (x :: l) := by
  cases ordered with
  | true => apply insertMulti_perm
  | false => exact h.perm x l

theorem insert_same_or_perm (h : Placement) (unique ordered : Bool) (less equal : κ → κ → Bool)
    (key : α → κ) (x : α) (l : List α)
    : h.insert unique ordered less equal key x l = l ∨
      (h.insert unique ordered less equal key x l).Perm (x :: l) := by
  cases unique with
  | false => exact Or.inr (h.insert_multi_perm ordered x l)
  | true =>
    cases ordered with
    | true => apply insertUnique_same_or_perm
    | false =>
      unfold insert
      simp only
      split
      . exact Or.inl rfl
      . exact Or.inr (h.perm x l)

theorem mem_insert (h : Placement) {unique ordered : Bool} {less equal : κ → κ → Bool}
    {key : α → κ} {x y : α} {l : List α} (hy : y ∈ h.insert unique ordered less equal key x l)
    : y = x ∨ y ∈ l := by
  rcases h.insert_same_or_perm unique ordered less equal key x l with hsame | hperm
  . rw [hsame] at hy
    exact Or.inr hy
  . exact List.mem_cons.mp (hperm.mem_iff.mp hy)

theorem length_insert_le (h : Placement) (unique ordered : Bool) (less equal : κ → κ → Bool)
    (key : α → κ) (x : α) (l : List α)
    : (h.insert unique ordered less equal key x l).length ≤ l.length + 1 := by
  rcases h.insert_same_or_perm unique ordered less equal key x l with hsame | hperm
  . rw [hsame]
    apply Nat.le_succ
  . exact Nat.le_of_eq hperm.length_eq

theorem foldl_insert (h : Placement) (unique ordered : Bool) (less equal : κ → κ → Bool)
    (key : α → κ) (l acc : List α)
    (harr : CppType.Arranged unique ordered less equal key (acc ++ l))
    : if ordered then
        l.foldl (fun acc x => h.insert unique ordered less equal key x acc) acc = acc ++ l
      else
        ∀ acc', acc'.Perm acc →
          (l.foldl (fun acc x => h.insert unique ordered less equal key x acc) acc').Perm
            (acc ++ l) := by
  induction l generalizing acc with
  | nil => cases ordered <;> simp
  | cons x l ih =>
    have hacc : acc ++ x :: l = acc ++ [x] ++ l := by simp
    rw [hacc] at harr ⊢
    have ih := ih (acc ++ [x]) harr
    cases ordered with
    | true =>
      -- everything inserted so far sorts before `x`, so `x` goes to the end
      have hlast : h.insert unique true less equal key x acc = acc ++ [x] := by
        cases unique with
        | true =>
          apply insertUnique_last
          intro y hy
          simp only [CppType.Arranged, List.append_assoc, List.pairwise_append] at harr
          apply harr.2.2 y hy x (by simp)
        | false =>
          apply insertMulti_last
          intro y hy
          simp only [CppType.Arranged, List.append_assoc, List.pairwise_append] at harr
          apply harr.2.2 y hy x (by simp)
      simp only [↓reduceIte, List.foldl_cons, hlast] at ih ⊢
      exact ih
    | false =>
      simp only [Bool.false_eq_true, ↓reduceIte, List.foldl_cons] at ih ⊢
      intro acc' hperm
      apply ih
      have hplace : (h.place x acc').Perm (acc ++ [x]) :=
        (h.perm x acc').trans ((hperm.cons x).trans (List.perm_append_singleton x acc).symm)
      cases unique with
      | true =>
        -- no key inserted so far is equal to the key of `x`
        have hnew : (acc'.any fun y => equal (key y) (key x)) = false := by
          simp only [CppType.Arranged, List.append_assoc, List.pairwise_append] at harr
          rw [List.any_eq_false]
          intro y hy
          simp [harr.2.2 y (hperm.mem_iff.mp hy) x (by simp)]
        simp only [insert, hnew, Bool.false_eq_true, ↓reduceIte]
        exact hplace
      | false => exact hplace

theorem foldl_insert_same (h : Placement) (unique ordered : Bool) (less equal : κ → κ → Bool)
    (key : α → κ) (same : α → α → Prop) (hkey : ∀ x y, same x y → key x = key y) (l l' : List α)
    (hsame : List.Forall₂ same l l')
    (harr : CppType.Arranged unique ordered less equal key l)
    : CppType.Same.sameElements ordered same l
        (l'.foldl (fun acc x => h.insert unique ordered less equal key x acc) []) := by
  have hkeys : l.map key = l'.map key := CppType.keys_eq hkey hsame
  have harr' : CppType.Arranged unique ordered less equal key ([] ++ l') := by
    rw [← CppType.arranged_map] at harr ⊢
    simpa [← hkeys] using harr
  have hfold := h.foldl_insert unique ordered less equal key l' [] harr'
  cases ordered with
  | true =>
    simp only [↓reduceIte, List.nil_append] at hfold
    simpa [CppType.Same.sameElements, hfold] using hsame
  | false =>
    simp only [Bool.false_eq_true, ↓reduceIte, List.nil_append] at hfold
    exact ⟨l', hsame, (hfold [] (List.Perm.refl [])).symm⟩

end Placement
end Fish
