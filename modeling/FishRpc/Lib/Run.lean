import Mathlib.Data.List.Forall2
import Mathlib.Data.List.Induction

/-!
This module contains runs of labelled transition systems. `Run Step Meets s₀ es s` says that the
events `es` lead from `s₀` to `s` and that each of them meets the condition `Meets` in the state it
happens in. Properties of all states that such a run reaches are invariants.
-/

inductive Run {σ ε : Type} (Step : σ → ε → σ → Prop) (Meets : σ → ε → Prop) (s₀ : σ)
    : List ε → σ → Prop where
  | nil : Run Step Meets s₀ [] s₀
  | snoc {es : List ε} {s s' : σ} {e : ε} (init : Run Step Meets s₀ es s) (meets : Meets s e)
    (step : Step s e s') : Run Step Meets s₀ (es ++ [e]) s'

namespace Run

variable {σ ε : Type} {Step : σ → ε → σ → Prop} {Meets : σ → ε → Prop} {s₀ s s' : σ} {es : List ε}

abbrev Always : σ → ε → Prop := fun _ _ => True

theorem single {e : ε} (h : Step s e s') : Run Step Always s [e] s' :=
  .snoc .nil trivial h

-- the state after the events of a deterministic system, if all of them can happen and are met
def execute (step : σ → ε → Option σ) (Meets : σ → ε → Prop) [∀ s e, Decidable (Meets s e)]
    (s₀ : σ) (es : List ε) : Option σ :=
  es.foldlM (fun s e => if Meets s e then step s e else none) s₀

theorem execute_concat {step : σ → ε → Option σ} [∀ s e, Decidable (Meets s e)] {e : ε}
    (h : execute step Meets s₀ (es ++ [e]) = some s)
    : ∃ s', execute step Meets s₀ es = some s' ∧ Meets s' e ∧ step s' e = some s := by
  unfold execute at h
  rw [List.foldlM_append] at h
  rcases Option.bind_eq_some_iff.mp h with ⟨s', hs', hstep⟩
  have hlast : (if Meets s' e then step s' e else none) = some s := by simpa using hstep
  split at hlast
  . exact ⟨s', hs', by assumption, hlast⟩
  . cases hlast

theorem of_execute {step : σ → ε → Option σ} [∀ s e, Decidable (Meets s e)]
    (hstep : ∀ s e s', step s e = some s' → Step s e s')
    (h : execute step Meets s₀ es = some s) : Run Step Meets s₀ es s := by
  induction es using List.reverseRecOn generalizing s with
  | nil =>
    cases h
    exact .nil
  | append_singleton es e ih =>
    rcases execute_concat h with ⟨s', hs', hmeets, hlast⟩
    exact .snoc (ih hs') hmeets (hstep _ _ _ hlast)

theorem append {es' : List ε} (h : Run Step Meets s₀ es s) (h' : Run Step Meets s es' s')
    : Run Step Meets s₀ (es ++ es') s' := by
  induction h' with
  | nil =>
    rw [List.append_nil]
    exact h
  | snoc _ hmeets hstep ih =>
    rw [← List.append_assoc]
    exact .snoc ih hmeets hstep

theorem cons {e : ε} {s₁ : σ} (hmeets : Meets s₀ e) (hstep : Step s₀ e s₁)
    (h : Run Step Meets s₁ es s) : Run Step Meets s₀ (e :: es) s :=
  append (.snoc .nil hmeets hstep) h

theorem eq_of_nil (h : Run Step Meets s₀ [] s) : s = s₀ := by
  generalize hes : ([] : List ε) = es at h
  cases h with
  | nil => rfl
  | snoc => simp at hes

theorem of_concat {e : ε} (h : Run Step Meets s₀ (es ++ [e]) s)
    : ∃ s', Run Step Meets s₀ es s' ∧ Meets s' e ∧ Step s' e s := by
  generalize hes : es ++ [e] = es' at h
  cases h with
  | nil => simp at hes
  | snoc init hmeets hstep =>
    rcases List.append_inj' hes rfl with ⟨rfl, hlast⟩
    cases hlast
    exact ⟨_, init, hmeets, hstep⟩

theorem invariant {Inv : σ → Prop} (h : Run Step Meets s₀ es s) (init : Inv s₀)
    (step : ∀ s e s', Inv s → Meets s e → Step s e s' → Inv s') : Inv s := by
  induction h with
  | nil => exact init
  | snoc _ hmeets hstep ih => exact step _ _ _ ih hmeets hstep

/--
If each step of a system is a step of another one or none at all, its runs are runs of that one.
-/
theorem abstracts {τ ζ : Type} {Step' : τ → ζ → τ → Prop} {f : σ → τ} {Inv : σ → Prop}
    (h : Run Step Meets s₀ es s) (init : Inv s₀)
    (inv : ∀ s e s', Inv s → Meets s e → Step s e s' → Inv s')
    (sim : ∀ s e s', Inv s → Meets s e → Step s e s' →
      f s' = f s ∨ ∃ e', Step' (f s) e' (f s'))
    : ∃ es', Run Step' (fun _ _ => True) (f s₀) es' (f s) := by
  induction h with
  | nil => exact ⟨[], .nil⟩
  | snoc hrun hmeets hstep ih =>
    rcases ih with ⟨es', hf⟩
    rcases sim _ _ _ (hrun.invariant init inv) hmeets hstep with hsame | ⟨e', hnext⟩
    . rw [hsame]
      exact ⟨es', hf⟩
    . exact ⟨_, .snoc hf trivial hnext⟩

theorem mono {Meets' : σ → ε → Prop} (h : Run Step Meets s₀ es s)
    (himp : ∀ s e, Meets s e → Meets' s e) : Run Step Meets' s₀ es s := by
  induction h with
  | nil => exact .nil
  | snoc _ hmeets hstep ih => exact .snoc ih (himp _ _ hmeets) hstep

theorem always (h : Run Step Meets s₀ es s) : Run Step Always s₀ es s :=
  h.mono fun _ _ _ => trivial

/--
If each step reaches a goal or takes what it costs from a potential, up to what it adds to it, a run
that has not reached the goal has not cost more than its first potential and what has been added.
-/
theorem goal_or_cost_le {Goal Inv : σ → Prop} {μ : σ → Nat} {costs adds : ε → Bool} {amount : Nat}
    (h : Run Step Meets s₀ es s) (init : Inv s₀)
    (stays : ∀ s e s', Goal s → Step s e s' → Goal s')
    (step : ∀ s e s', Inv s → Meets s e → Step s e s' →
      Goal s' ∨ Inv s' ∧ μ s' + (costs e).toNat ≤ μ s + amount * (adds e).toNat)
    : Goal s ∨ Inv s ∧ μ s + es.countP costs ≤ μ s₀ + amount * es.countP adds := by
  induction h with
  | nil => exact Or.inr ⟨init, Nat.le_refl _⟩
  | snoc _ hmeets hstep ih =>
    rename_i es s s' e _
    rcases ih with hgoal | ⟨hinv, hle⟩
    . exact Or.inl (stays _ _ _ hgoal hstep)
    . rcases step _ _ _ hinv hmeets hstep with hgoal | ⟨hinv', hcost⟩
      . exact Or.inl hgoal
      . have hcount (counts : ε → Bool)
            : (es ++ [e]).countP counts = es.countP counts + (counts e).toNat := by
          rw [List.countP_append, List.countP_singleton]
          cases counts e <;> rfl
        refine Or.inr ⟨hinv', ?_⟩
        rw [hcount costs, hcount adds, Nat.mul_add]
        omega

section

variable {Inv : σ → Prop} {μ : σ → Nat} (init : Inv s₀)
  (inv : ∀ s e s', Inv s → Step s e s' → Inv s')
  (keep : ∀ s e s', Inv s → Step s e s' → Meets s e → μ s' = μ s)
  (lose : ∀ s e s', Inv s → Step s e s' → ¬Meets s e → μ s' < μ s)

include init inv keep

theorem measure_eq (h : Run Step Meets s₀ es s) : μ s = μ s₀ := by
  have hinv : Inv s ∧ μ s = μ s₀ := by
    apply invariant h ⟨init, rfl⟩
    intro s e s' hs hmeets hstep
    exact ⟨inv s e s' hs.1 hstep, (keep s e s' hs.1 hstep hmeets).trans hs.2⟩
  apply hinv.2

include lose

theorem measure_le (h : Run Step Always s₀ es s) : Inv s ∧ μ s ≤ μ s₀ := by
  apply invariant h ⟨init, Nat.le_refl _⟩
  intro s e s' hs _ hstep
  refine ⟨inv s e s' hs.1 hstep, ?_⟩
  by_cases hmeets : Meets s e
  . rw [keep s e s' hs.1 hstep hmeets]
    apply hs.2
  . have := lose s e s' hs.1 hstep hmeets
    omega

/--
If a quantity is kept by the steps that meet a condition and decreases in all others, it has its
initial value after exactly the runs whose steps all meet the condition.
-/
theorem measure_eq_iff (h : Run Step Always s₀ es s) : μ s = μ s₀ ↔ Run Step Meets s₀ es s := by
  constructor
  . intro heq
    induction h with
    | nil => exact .nil
    | @snoc es s s' e hrun _ hstep ih =>
      have hle := measure_le init inv keep lose hrun
      by_cases hmeets : Meets s e
      . have hkeep := keep s e s' hle.1 hstep hmeets
        exact .snoc (ih (by omega)) hmeets hstep
      . have hlose := lose s e s' hle.1 hstep hmeets
        omega
  . intro hmeets
    apply measure_eq init inv keep hmeets

end

/--
If each step keeps a property exactly when it meets a condition, the property holds after exactly
the runs whose steps all meet the condition.
-/
theorem holds_iff {Inv P : σ → Prop} (init : Inv s₀) (start : P s₀)
    (inv : ∀ s e s', Inv s → Step s e s' → Inv s')
    (step : ∀ s e s', Inv s → Step s e s' → (P s' ↔ P s ∧ Meets s e))
    (h : Run Step Always s₀ es s) : P s ↔ Run Step Meets s₀ es s := by
  constructor
  . intro hs
    induction h with
    | nil => exact .nil
    | @snoc es s s' e hrun _ hstep ih =>
      have hinv : Inv s := invariant hrun init fun s e s' hs _ hstep => inv s e s' hs hstep
      have hkept := (step s e s' hinv hstep).mp hs
      exact .snoc (ih hkept.1) hkept.2 hstep
  . intro hmeets
    have hboth : Inv s ∧ P s := by
      apply invariant hmeets ⟨init, start⟩
      intro s e s' hs hmeets hstep
      exact ⟨inv s e s' hs.1 hstep, (step s e s' hs.1 hstep).mpr ⟨hs.2, hmeets⟩⟩
    apply hboth.2

/--
Two conditions that agree as long as the second one has been met are met by the same runs.
-/
theorem meets_congr {Inv : σ → Prop} {Meets' : σ → ε → Prop} (init : Inv s₀)
    (inv : ∀ s e s', Inv s → Meets' s e → Step s e s' → Inv s')
    (hiff : ∀ s e s', Inv s → Step s e s' → (Meets s e ↔ Meets' s e))
    : Run Step Meets s₀ es s ↔ Run Step Meets' s₀ es s := by
  constructor
  . intro h
    induction h with
    | nil => exact .nil
    | @snoc es s s' e _ hmeets hstep ih =>
      have hinv : Inv s := invariant ih init inv
      exact .snoc ih ((hiff s e s' hinv hstep).mp hmeets) hstep
  . intro h
    induction h with
    | nil => exact .nil
    | @snoc es s s' e hrun hmeets hstep ih =>
      have hinv : Inv s := invariant hrun init inv
      exact .snoc ih ((hiff s e s' hinv hstep).mpr hmeets) hstep

-- the steps of a system that can always go on
def Next (next : σ → ε → σ) (s : σ) (e : ε) (s' : σ) : Prop := s' = next s e

theorem foldl (next : σ → ε → σ) (s₀ : σ) (es : List ε)
    : Run (Next next) Always s₀ es (es.foldl next s₀) := by
  induction es using List.reverseRecOn with
  | nil => exact .nil
  | append_singleton es e ih =>
    rw [List.foldl_append]
    exact .snoc ih trivial rfl

/-! ### Properties of every step -/

-- what holds of each event of a system that can always go on, in the state it happens in
def Each (next : σ → ε → σ) (P : σ → ε → Prop) : σ → List ε → Prop
  | _, [] => True
  | s, e :: es => P s e ∧ Each next P (next s e) es

variable {next : σ → ε → σ} {P Q : σ → ε → Prop}

/--
Two properties of steps that agree as long as the second one has held so far hold of every step of
the same runs.
-/
theorem each_congr {Inv : σ → Prop} (hiff : ∀ s e, Inv s → (P s e ↔ Q s e))
    (inv : ∀ s e, Inv s → Q s e → Inv (next s e)) (init : Inv s) (es : List ε)
    : Each next P s es ↔ Each next Q s es := by
  induction es generalizing s with
  | nil => exact Iff.rfl
  | cons e es ih =>
    unfold Each
    rw [hiff s e init]
    constructor
    . rintro ⟨hhead, htail⟩
      exact ⟨hhead, (ih (inv s e init hhead)).mp htail⟩
    . rintro ⟨hhead, htail⟩
      exact ⟨hhead, (ih (inv s e init hhead)).mpr htail⟩

/--
Two runs whose events are related keep a relation that each event keeps for which the property holds.
-/
theorem Each.foldl_rel {R : σ → σ → Prop} {E : ε → ε → Prop}
    (hstep : ∀ s s' e e', R s s' → E e e' → P s e → R (next s e) (next s' e')) {s s' : σ}
    {es es' : List ε} (hes : List.Forall₂ E es es') (heach : Each next P s es) (h : R s s')
    : R (es.foldl next s) (es'.foldl next s') := by
  induction hes generalizing s s' with
  | nil => exact h
  | cons hhead _ ih => exact ih heach.2 (hstep _ _ _ _ h hhead heach.1)

/-! ### How often a condition is met -/

-- a run with the number of its events that meet the condition in the state they happen in
inductive Counts (Step : σ → ε → σ → Prop) (Meets : σ → ε → Prop) (s₀ : σ)
    : List ε → σ → Nat → Prop where
  | nil : Counts Step Meets s₀ [] s₀ 0
  | meet {es : List ε} {s s' : σ} {e : ε} {n : Nat} (init : Counts Step Meets s₀ es s n)
    (meets : Meets s e) (step : Step s e s') : Counts Step Meets s₀ (es ++ [e]) s' (n + 1)
  | miss {es : List ε} {s s' : σ} {e : ε} {n : Nat} (init : Counts Step Meets s₀ es s n)
    (misses : ¬Meets s e) (step : Step s e s') : Counts Step Meets s₀ (es ++ [e]) s' n

theorem Counts.run {n : Nat} (h : Counts Step Meets s₀ es s n) : Run Step Always s₀ es s := by
  induction h with
  | nil => exact .nil
  | meet _ _ hstep ih => exact .snoc ih trivial hstep
  | miss _ _ hstep ih => exact .snoc ih trivial hstep

def tally (step : σ → ε → Option σ) (Meets : σ → ε → Prop) [∀ s e, Decidable (Meets s e)]
    (s₀ : σ) (es : List ε) : Option (σ × Nat) :=
  es.foldlM (fun (s, n) e => (step s e).map fun s' => (s', if Meets s e then n + 1 else n)) (s₀, 0)

theorem counts_of_tally {step : σ → ε → Option σ} [∀ s e, Decidable (Meets s e)] {n : Nat}
    (hstep : ∀ s e s', step s e = some s' → Step s e s')
    (h : tally step Meets s₀ es = some (s, n)) : Counts Step Meets s₀ es s n := by
  induction es using List.reverseRecOn generalizing s n with
  | nil =>
    cases h
    exact .nil
  | append_singleton es e ih =>
    unfold tally at h
    rw [List.foldlM_append] at h
    rcases Option.bind_eq_some_iff.mp h with ⟨⟨s', n'⟩, hs', hlast⟩
    have hlast : (step s' e).map (fun s => (s, if Meets s' e then n' + 1 else n')) = some (s, n) := by
      simpa using hlast
    rcases Option.map_eq_some_iff.mp hlast with ⟨s₁, hs₁, heq⟩
    cases heq
    split
    next hmeets => exact .meet (ih hs') hmeets (hstep _ _ _ hs₁)
    next hmisses => exact .miss (ih hs') hmisses (hstep _ _ _ hs₁)

end Run
