import Mathlib.Order.Defs.Unbundled
import Mathlib.Data.List.Basic

/-!
This module contains Boolean comparison functions, their lexicographic lifting to pairs and lists
and insertion into lists that are kept sorted by a key. `insertUnique` leaves a list alone that has
the key already, `insertMulti` inserts behind all elements with the same key.
-/

abbrev LawfulLess {α : Type} (less : α → α → Bool) : Prop :=
  IsStrictTotalOrder α (fun a b => less a b = true)

namespace LawfulLess

variable {α β : Type}

theorem of {less : α → α → Bool} (hirrefl : ∀ a, less a a = false)
    (htrans : ∀ a b c, less a b = true → less b c = true → less a c = true)
    (htri : ∀ a b, less a b = false → less b a = false → a = b)
    : LawfulLess less where
  irrefl a h := by simp [hirrefl] at h
  trans := htrans
  trichotomous a b hab hba := by
    apply htri
    . simpa using hab
    . simpa using hba

theorem irrefl {less : α → α → Bool} (h : LawfulLess less) (a : α) : less a a = false := by
  have := h.toIsStrictOrder.toIrrefl.irrefl a
  simpa using this

theorem trans {less : α → α → Bool} (h : LawfulLess less) {a b c : α} (hab : less a b = true)
    (hbc : less b c = true) : less a c = true :=
  h.toIsStrictOrder.toIsTrans.trans a b c hab hbc

theorem eq_of_not_less {less : α → α → Bool} (h : LawfulLess less) {a b : α}
    (hab : less a b = false) (hba : less b a = false) : a = b := by
  apply h.toTrichotomous.trichotomous
  . simp [hab]
  . simp [hba]

theorem lex_iff {less : α → α → Bool} (h : LawfulLess less) (a b : α) (tail : Bool)
    : (less a b || (!less b a && tail)) = true
        ↔
      (less a b = true ∨ (a = b ∧ tail = true)) := by
  cases hab : less a b with
  | true => simp
  | false =>
    simp only [Bool.false_or, Bool.and_eq_true, Bool.not_eq_true', Bool.false_eq_true, false_or]
    constructor
    . rintro ⟨hba, htail⟩
      exact ⟨h.eq_of_not_less hab hba, htail⟩
    . rintro ⟨rfl, htail⟩
      exact ⟨hab, htail⟩

theorem lex_trans {less : α → α → Bool} (h : LawfulLess less) {a b c : α} {s t u : Prop}
    (htail : s → t → u) (h₁ : less a b = true ∨ (a = b ∧ s)) (h₂ : less b c = true ∨ (b = c ∧ t))
    : less a c = true ∨ (a = c ∧ u) := by
  rcases h₁ with h₁ | ⟨rfl, h₁⟩
  . rcases h₂ with h₂ | ⟨rfl, -⟩
    . exact Or.inl (h.trans h₁ h₂)
    . exact Or.inl h₁
  . rcases h₂ with h₂ | ⟨rfl, h₂⟩
    . exact Or.inl h₂
    . exact Or.inr ⟨rfl, htail h₁ h₂⟩

end LawfulLess

section Lex

variable {α β : Type}

def pairLess (lessA : α → α → Bool) (lessB : β → β → Bool) (x y : α × β) : Bool :=
  lessA x.1 y.1 || (!lessA y.1 x.1 && lessB x.2 y.2)

def listLess (less : α → α → Bool) : List α → List α → Bool
  | _, [] => false
  | [], _ :: _ => true
  | a :: as, b :: bs => less a b || (!less b a && listLess less as bs)

theorem pairLess_lawful {lessA : α → α → Bool} {lessB : β → β → Bool} (hA : LawfulLess lessA)
    (hB : LawfulLess lessB) : LawfulLess (pairLess lessA lessB) := by
  apply LawfulLess.of
  . intro x
    simp [pairLess, hA.irrefl, hB.irrefl]
  . intro x y z hxy hyz
    simp only [pairLess, hA.lex_iff] at hxy hyz ⊢
    apply hA.lex_trans hB.trans hxy hyz
  . rintro ⟨a₁, b₁⟩ ⟨a₂, b₂⟩ h₁₂ h₂₁
    simp only [pairLess, Bool.or_eq_false_iff] at h₁₂ h₂₁
    have ha : a₁ = a₂ := hA.eq_of_not_less h₁₂.1 h₂₁.1
    have hb : b₁ = b₂ := by
      apply hB.eq_of_not_less
      . simpa [h₂₁.1] using h₁₂.2
      . simpa [h₁₂.1] using h₂₁.2
    rw [ha, hb]

theorem listLess_lawful {less : α → α → Bool} (h : LawfulLess less)
    : LawfulLess (listLess less) := by
  apply LawfulLess.of
  . intro as
    induction as with
    | nil => rfl
    | cons a as ih => simp [listLess, h.irrefl, ih]
  . intro as bs cs
    induction as generalizing bs cs with
    | nil => cases bs <;> cases cs <;> simp [listLess]
    | cons a as ih =>
      match bs, cs with
      | [], _ => simp [listLess]
      | _ :: _, [] => simp [listLess]
      | b :: bs, c :: cs =>
        intro h₁ h₂
        simp only [listLess, h.lex_iff] at h₁ h₂ ⊢
        apply h.lex_trans (ih bs cs) h₁ h₂
  . intro as bs
    induction as generalizing bs with
    | nil => cases bs <;> simp [listLess]
    | cons a as ih =>
      match bs with
      | [] => simp [listLess]
      | b :: bs =>
        simp only [listLess, Bool.or_eq_false_iff]
        intro h₁₂ h₂₁
        have hab : a = b := h.eq_of_not_less h₁₂.1 h₂₁.1
        have htail : as = bs := by
          apply ih
          . simpa [h₂₁.1] using h₁₂.2
          . simpa [h₁₂.1] using h₂₁.2
        rw [hab, htail]

end Lex

section Insert

variable {α κ : Type} (less : κ → κ → Bool) (key : α → κ)

def insertUnique (x : α) : List α → List α
  | [] => [x]
  | y :: ys =>
    if less (key y) (key x) then
      y :: insertUnique x ys
    else if less (key x) (key y) then
      x :: y :: ys
    else
      y :: ys

def insertMulti (x : α) : List α → List α
  | [] => [x]
  | y :: ys =>
    if less (key x) (key y) then
      x :: y :: ys
    else
      y :: insertMulti x ys

theorem insertUnique_same_or_perm (x : α) (ys : List α)
    : insertUnique less key x ys = ys ∨ (insertUnique less key x ys).Perm (x :: ys) := by
  induction ys with
  | nil => exact Or.inr (List.Perm.refl _)
  | cons y ys ih =>
    unfold insertUnique
    split
    . rcases ih with hsame | hperm
      . rw [hsame]
        exact Or.inl rfl
      . exact Or.inr ((hperm.cons y).trans (List.Perm.swap x y ys))
    . split
      . exact Or.inr (List.Perm.refl _)
      . exact Or.inl rfl

theorem insertMulti_perm (x : α) (ys : List α) : (insertMulti less key x ys).Perm (x :: ys) := by
  induction ys with
  | nil => exact List.Perm.refl _
  | cons y ys ih =>
    unfold insertMulti
    split
    . exact List.Perm.refl _
    . exact (ih.cons y).trans (List.Perm.swap x y ys)

section Unique

variable {less} {key} (h : LawfulLess less)

include h

-- `x` is not inserted, or everything in front of it is smaller and everything behind it is greater
theorem insertUnique_cases {x : α} {ys : List α}
    (hys : ys.Pairwise fun y z => less (key y) (key z) = true)
    : (∃ y ∈ ys, key y = key x) ∧ insertUnique less key x ys = ys ∨
      ∃ pre post, ys = pre ++ post ∧ insertUnique less key x ys = pre ++ x :: post ∧
        (∀ y ∈ pre, less (key y) (key x) = true) ∧ ∀ y ∈ post, less (key x) (key y) = true := by
  induction ys with
  | nil => exact Or.inr ⟨[], [], rfl, rfl, by simp, by simp⟩
  | cons y ys ih =>
    rw [List.pairwise_cons] at hys
    unfold insertUnique
    cases hyx : less (key y) (key x) with
    | true =>
      rcases ih hys.2 with ⟨⟨z, hz, heq⟩, hinsert⟩ | ⟨pre, post, hsplit, hinsert, hpre, hpost⟩
      . refine Or.inl ⟨⟨z, List.mem_cons_of_mem y hz, heq⟩, ?_⟩
        simp [hinsert]
      . refine Or.inr ⟨y :: pre, post, by simp [hsplit], by simp [hinsert], ?_, hpost⟩
        intro z hz
        rcases List.mem_cons.mp hz with rfl | hz
        . exact hyx
        . apply hpre z hz
    | false =>
      cases hxy : less (key x) (key y) with
      | true =>
        refine Or.inr ⟨[], y :: ys, rfl, by simp, by simp, ?_⟩
        intro z hz
        rcases List.mem_cons.mp hz with rfl | hz
        . exact hxy
        . apply h.trans hxy (hys.1 z hz)
      | false =>
        refine Or.inl ⟨⟨y, by simp, h.eq_of_not_less hyx hxy⟩, ?_⟩
        simp

theorem insertUnique_pairwise {x : α} {ys : List α}
    (hys : ys.Pairwise fun y z => less (key y) (key z) = true)
    : (insertUnique less key x ys).Pairwise fun y z => less (key y) (key z) = true := by
  rcases insertUnique_cases (x := x) h hys with
    ⟨_, hinsert⟩ | ⟨pre, post, hsplit, hinsert, hpre, hpost⟩
  . rw [hinsert]
    exact hys
  . rw [hinsert]
    rw [hsplit, List.pairwise_append] at hys
    rw [List.pairwise_append, List.pairwise_cons]
    refine ⟨hys.1, ⟨hpost, hys.2.1⟩, ?_⟩
    intro y hy z hz
    rcases List.mem_cons.mp hz with rfl | hz
    . apply hpre y hy
    . apply hys.2.2 y hy z hz

theorem insertUnique_perm {x : α} {ys : List α}
    (hys : ys.Pairwise fun y z => less (key y) (key z) = true) (hnew : ∀ y ∈ ys, key y ≠ key x)
    : (insertUnique less key x ys).Perm (x :: ys) := by
  rcases insertUnique_cases (x := x) h hys with ⟨⟨y, hy, heq⟩, _⟩ | ⟨pre, post, hsplit, hinsert, _⟩
  . exact absurd heq (hnew y hy)
  . rw [hinsert, hsplit]
    apply List.perm_middle

theorem find?_insertUnique {eq : κ → κ → Bool} (heq : ∀ a b, eq a b = true ↔ a = b) {x : α}
    {ys : List α} (hys : ys.Pairwise fun y z => less (key y) (key z) = true) (k : κ)
    : (insertUnique less key x ys).find? (fun y => eq (key y) k)
        =
      (ys.find? fun y => eq (key y) k).or (if eq (key x) k then some x else none) := by
  rcases insertUnique_cases (x := x) h hys with
    ⟨⟨y, hy, hkey⟩, hinsert⟩ | ⟨pre, post, hsplit, hinsert, hpre, hpost⟩
  . rw [hinsert]
    split
    . next hx =>
      have hfound : (ys.find? fun y => eq (key y) k).isSome := by
        rw [List.find?_isSome]
        exact ⟨y, hy, by rw [hkey]; exact hx⟩
      rw [Option.or_of_isSome hfound]
    . rw [Option.or_none]
  . have hother {y : α} (hne : key y ≠ key x) (hx : eq (key x) k = true) : ¬eq (key y) k = true := by
      rw [heq] at hx ⊢
      rw [← hx]
      exact hne
    have hne {y z : α} (hless : less (key y) (key z) = true) : key y ≠ key z := by
      intro heq
      rw [heq, h.irrefl] at hless
      cases hless
    rw [hinsert, hsplit, List.find?_append, List.find?_append, List.find?_cons]
    cases hx : eq (key x) k with
    | true =>
      have hpre : (pre.find? fun y => eq (key y) k) = none := by
        rw [List.find?_eq_none]
        intro y hy
        apply hother (hne (hpre y hy)) hx
      have hpost : (post.find? fun y => eq (key y) k) = none := by
        rw [List.find?_eq_none]
        intro y hy
        apply hother (Ne.symm (hne (hpost y hy))) hx
      rw [hpre, hpost]
      simp
    | false => simp

section Loop

variable (l : List α) {acc : List α}
  (hacc : acc.Pairwise fun y z => less (key y) (key z) = true)

include hacc

theorem foldl_insertUnique_pairwise
    : (l.foldl (fun acc x => insertUnique less key x acc) acc).Pairwise
        fun y z => less (key y) (key z) = true := by
  induction l generalizing acc with
  | nil => exact hacc
  | cons x l ih => exact ih (insertUnique_pairwise h hacc)

/--
Of several elements with the same key the first one is found.
-/
theorem find?_foldl_insertUnique {eq : κ → κ → Bool} (heq : ∀ a b, eq a b = true ↔ a = b) (k : κ)
    : (l.foldl (fun acc x => insertUnique less key x acc) acc).find? (fun y => eq (key y) k)
        =
      (acc.find? fun y => eq (key y) k).or (l.find? fun y => eq (key y) k) := by
  induction l generalizing acc with
  | nil => simp
  | cons x l ih =>
    rw [List.foldl_cons, ih (insertUnique_pairwise h hacc)]
    rw [find?_insertUnique h heq hacc]
    rw [Option.or_assoc, List.find?_cons]
    cases eq (key x) k with
    | true => simp
    | false => simp

theorem foldl_insertUnique_perm (hdistinct : (acc ++ l).Pairwise fun y z => key y ≠ key z)
    : (l.foldl (fun acc x => insertUnique less key x acc) acc).Perm (acc ++ l) := by
  induction l generalizing acc with
  | nil => simp
  | cons x l ih =>
    have hnew : ∀ y ∈ acc, key y ≠ key x := by
      intro y hy
      apply (List.pairwise_append.mp hdistinct).2.2 y hy x (by simp)
    have hperm := insertUnique_perm h hacc hnew
    have hmoved : (insertUnique less key x acc ++ l).Perm (acc ++ x :: l) :=
      (hperm.append_right l).trans List.perm_middle.symm
    have hdistinct' := hmoved.symm.pairwise hdistinct Ne.symm
    exact (ih (insertUnique_pairwise h hacc) hdistinct').trans hmoved

end Loop

end Unique

theorem insertUnique_last (x : α) (ys : List α) (h : ∀ y ∈ ys, less (key y) (key x) = true)
    : insertUnique less key x ys = ys ++ [x] := by
  induction ys with
  | nil => rfl
  | cons y ys ih =>
    have hhead := h y (by simp)
    have htail := ih (fun y hy => h y (List.mem_cons_of_mem _ hy))
    simp [insertUnique, hhead, htail]

theorem insertMulti_last (x : α) (ys : List α) (h : ∀ y ∈ ys, less (key x) (key y) = false)
    : insertMulti less key x ys = ys ++ [x] := by
  induction ys with
  | nil => rfl
  | cons y ys ih =>
    have hhead := h y (by simp)
    have htail := ih (fun y hy => h y (List.mem_cons_of_mem _ hy))
    simp [insertMulti, hhead, htail]

end Insert
