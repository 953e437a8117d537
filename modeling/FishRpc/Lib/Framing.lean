import Mathlib.Data.List.Forall2

/-!
This module contains lists of frames that are written one after another. If the end of a single
frame can be told from its own symbols, then equal streams come from lists that agree frame by
frame.
-/

namespace Framing

variable {α β : Type}

def Decodable (frame : α → List β) (Valid : α → Prop) (Same : α → α → Prop) : Prop :=
  ∀ xs ys : List α, (∀ x ∈ xs, Valid x) → (∀ y ∈ ys, Valid y) →
    xs.flatMap frame = ys.flatMap frame → List.Forall₂ Same xs ys

structure Delimits (frame : α → List β) (Valid : α → Prop) (Same : α → α → Prop) : Prop where
  nonempty : ∀ x, Valid x → frame x ≠ []
  split : ∀ x y rest rest', Valid x → Valid y → frame x ++ rest = frame y ++ rest' →
    Same x y ∧ rest = rest'

variable {frame : α → List β} {Valid Valid' : α → Prop} {Same : α → α → Prop}

theorem Delimits.decodable (h : Delimits frame Valid Same) : Decodable frame Valid Same := by
  intro xs
  induction xs with
  | nil =>
    intro ys _ hys heq
    cases ys with
    | nil => exact .nil
    | cons y ys =>
      simp only [List.flatMap_nil, List.flatMap_cons, List.nil_eq, List.append_eq_nil_iff] at heq
      cases h.nonempty y (hys y (by simp)) heq.1
  | cons x xs ih =>
    intro ys hxs hys heq
    cases ys with
    | nil =>
      simp only [List.flatMap_nil, List.flatMap_cons, List.append_eq_nil_iff] at heq
      cases h.nonempty x (hxs x (by simp)) heq.1
    | cons y ys =>
      simp only [List.flatMap_cons] at heq
      have hsplit := h.split x y _ _ (hxs x (by simp)) (hys y (by simp)) heq
      have hrest := ih ys (fun z hz => hxs z (by simp [hz])) (fun z hz => hys z (by simp [hz]))
        hsplit.2
      exact .cons hsplit.1 hrest

theorem Decodable.mono (h : Decodable frame Valid Same) (himp : ∀ x, Valid' x → Valid x)
    : Decodable frame Valid' Same := by
  intro xs ys hxs hys heq
  apply h xs ys _ _ heq
  . intro x hx
    apply himp x (hxs x hx)
  . intro y hy
    apply himp y (hys y hy)

end Framing
