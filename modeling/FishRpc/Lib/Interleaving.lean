import FishRpc.Lib.Run
import Mathlib.Logic.Function.Basic

/-!
This module contains machines that run next to each other: each event is addressed to one of them
and changes the state of that one only. The state that a machine ends in is a function of its own
events, whatever the events of the others are and wherever they come. What holds of each event of a
system of such machines holds of the events of each machine.
-/

namespace Interleaving

variable {ι ε σ τ : Type} [DecidableEq ι]

def own (i : ι) (es : List (ι × ε)) : List ε :=
  es.filterMap fun e => if e.1 = i then some e.2 else none

def step (act : σ → ε → σ) (s : ι → σ) (e : ι × ε) : ι → σ :=
  Function.update s e.1 (act (s e.1) e.2)

def run (act : σ → ε → σ) (s : ι → σ) (es : List (ι × ε)) : ι → σ :=
  es.foldl (step act) s

variable {act : σ → ε → σ}

theorem own_cons_self (i : ι) (e : ε) (es : List (ι × ε))
    : own i ((i, e) :: es) = e :: own i es := by
  simp [own]

theorem own_cons_of_ne {i j : ι} (h : j ≠ i) (e : ε) (es : List (ι × ε))
    : own i ((j, e) :: es) = own i es := by
  simp [own, h]

theorem own_concat_self (i : ι) (e : ε) (es : List (ι × ε))
    : own i (es ++ [(i, e)]) = own i es ++ [e] := by
  simp [own]

theorem own_concat_of_ne {i j : ι} (h : j ≠ i) (e : ε) (es : List (ι × ε))
    : own i (es ++ [(j, e)]) = own i es := by
  simp [own, h]

theorem run_apply (s : ι → σ) (es : List (ι × ε)) (i : ι)
    : run act s es i = (own i es).foldl act (s i) := by
  induction es generalizing s with
  | nil => rfl
  | cons e es ih =>
    rcases e with ⟨j, e⟩
    have hrun : run act s ((j, e) :: es) = run act (step act s (j, e)) es := rfl
    rw [hrun]
    rw [ih]
    by_cases hj : j = i
    . subst hj
      rw [own_cons_self]
      simp [step]
    . rw [own_cons_of_ne hj]
      simp [step, Ne.symm hj]

/--
A system whose events act like those of the machines that it is seen as.
-/
structure Simulates (next : τ → ι × ε → τ) (Inv : τ → Prop) (view : τ → ι → σ)
    (act : σ → ε → σ) : Prop where
  inv : ∀ t e, Inv t → Inv (next t e)
  commutes : ∀ t e, Inv t → view (next t e) = step act (view t) e

variable {next : τ → ι × ε → τ} {Inv : τ → Prop} {view : τ → ι → σ}

theorem Simulates.foldl (h : Simulates next Inv view act) {t : τ} (ht : Inv t)
    (es : List (ι × ε)) : view (es.foldl next t) = run act (view t) es := by
  induction es generalizing t with
  | nil => rfl
  | cons e es ih =>
    have hrun : run act (view t) (e :: es) = run act (Interleaving.step act (view t) e) es := rfl
    rw [hrun]
    rw [← h.commutes t e ht]
    apply ih (h.inv t e ht)

-- what holds of the events of the system holds of those of each machine
theorem Simulates.each_own (h : Simulates next Inv view act) {P : τ → ι × ε → Prop}
    {Q : σ → ε → Prop} (himp : ∀ t e, P t e → Q (view t e.1) e.2) {t : τ} (ht : Inv t)
    {es : List (ι × ε)} (hes : Run.Each next P t es) (i : ι)
    : Run.Each act Q (view t i) (own i es) := by
  induction es generalizing t with
  | nil => trivial
  | cons e es ih =>
    rcases hes with ⟨hhead, htail⟩
    have hview := congrFun (h.commutes t e ht) i
    have hown := ih (h.inv t e ht) htail
    unfold Interleaving.step at hview
    by_cases hi : e.1 = i
    . subst hi
      rw [Function.update_self] at hview
      rw [hview] at hown
      rw [show e :: es = (e.1, e.2) :: es from rfl, own_cons_self]
      exact ⟨himp t e hhead, hown⟩
    . rw [Function.update_of_ne (Ne.symm hi)] at hview
      rw [hview] at hown
      rw [show e :: es = (e.1, e.2) :: es from rfl, own_cons_of_ne hi]
      exact hown

end Interleaving
