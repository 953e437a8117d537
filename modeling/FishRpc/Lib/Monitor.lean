import FishRpc.Lib.Interleaving
import FishRpc.Lib.Ownership
import FishRpc.Lib.Run

/-!
This module contains objects whose operations hold one lock from the first access to the last. The
body of an operation is a program over the shared state, and other threads can act between any two of
its accesses. `lin` and `returned` are history: the operations in the order in which they have left
the section, and what each thread has got back. To its callers every run looks like one that executes
the operations of `lin` one after the other.
-/

namespace Monitor

variable {T σ ω ρ : Type}

-- `access` looks at the state, changes it and goes on
inductive Body (σ ρ : Type) where
  | ret (result : ρ)
  | access (change : σ → σ) (next : σ → Body σ ρ)

def Body.exec : Body σ ρ → σ → ρ × σ
  | ret result, s => (result, s)
  | access change next, s => (next s).exec (change s)

-- `inside` has the rest of the body
inductive Phase (σ ω ρ : Type) where
  | outside
  | entering (op : ω)
  | inside (op : ω) (body : Body σ ρ)
  | returning (op : ω) (result : ρ)

namespace Phase

def Inside : Phase σ ω ρ → Prop
  | inside _ _ => True
  | outside | entering _ | returning _ _ => False

-- the operation that has left the section and has not returned
def pending : Phase σ ω ρ → List (ω × ρ)
  | returning op result => [(op, result)]
  | outside | entering _ | inside _ _ => []

end Phase

inductive Action (ω : Type) where
  | call (op : ω)
  | lock
  | access
  | unlock
  | ret

end Monitor

structure Monitor (T σ ω ρ : Type) where
  state : σ
  owner : Option T
  phase : T → Monitor.Phase σ ω ρ
  lin : List (T × ω × ρ)
  returned : T → List (ω × ρ)

namespace Monitor

variable {T σ ω ρ α : Type} [DecidableEq T] {program : ω → Body σ ρ} {t u : T} {op : ω}
  {s s' : Monitor T σ ω ρ} {s₀ q : σ}

def init (state : σ) : Monitor T σ ω ρ where
  state
  owner := none
  phase _ := .outside
  lin := []
  returned _ := []

def move (s : Monitor T σ ω ρ) (t : T) (phase : Phase σ ω ρ) : Monitor T σ ω ρ :=
  { s with phase := Function.update s.phase t phase }

@[simp] theorem move_lin (s : Monitor T σ ω ρ) (t : T) (phase : Phase σ ω ρ)
    : (s.move t phase).lin = s.lin := rfl

omit [DecidableEq T] in
theorem inside_of_eq {body : Body σ ρ} (h : s.phase t = .inside op body)
    : (s.phase t).Inside := by
  rw [h]
  trivial

-- `none` if the step cannot happen
def step (program : ω → Body σ ρ) (s : Monitor T σ ω ρ) : T × Action ω → Option (Monitor T σ ω ρ)
  | (t, .call op) =>
    match s.phase t with
    | .outside => some (s.move t (.entering op))
    | _ => none
  | (t, .lock) =>
    match s.phase t, s.owner with
    | .entering op, none => some ({ s with owner := some t }.move t (.inside op (program op)))
    | _, _ => none
  | (t, .access) =>
    match s.phase t with
    | .inside op (.access change next) =>
      some ({ s with state := change s.state }.move t (.inside op (next s.state)))
    | _ => none
  | (t, .unlock) =>
    match s.phase t with
    | .inside op (.ret result) =>
      some
        ({ s with owner := none, lin := s.lin ++ [(t, op, result)] }.move t (.returning op result))
    | _ => none
  | (t, .ret) =>
    match s.phase t with
    | .returning op result =>
      some
        ({ s with returned := Function.update s.returned t (s.returned t ++ [(op, result)]) }.move t
          .outside)
    | _ => none

def Step (program : ω → Body σ ρ) (s : Monitor T σ ω ρ) (e : T × Action ω) (s' : Monitor T σ ω ρ)
    : Prop :=
  s.step program e = some s'

-- one operation after the other
def Serve (apply : ω → α → ρ × α) (s : α) (e : T × ω × ρ) (s' : α) : Prop :=
  apply e.2.1 s = (e.2.2, s')

abbrev Serial (apply : ω → α → ρ × α) (s : α) (lin : List (T × ω × ρ)) (s' : α) : Prop :=
  Run (Serve apply) Run.Always s lin s'

/-! ### The operations take effect one after the other -/

-- `q` is the state after the operations that have left the section
structure Inv (program : ω → Body σ ρ) (s₀ : σ) (s : Monitor T σ ω ρ) (q : σ) : Prop where
  held : Ownership.Held s.owner fun t => (s.phase t).Inside
  serial : Serial (fun op => (program op).exec) s₀ s.lin q
  free : s.owner = none → s.state = q
  rest : ∀ t op body, s.phase t = .inside op body → body.exec s.state = (program op).exec q
  results : ∀ t, s.returned t ++ (s.phase t).pending = Interleaving.own t s.lin

omit [DecidableEq T] in
theorem inv_init [DecidableEq T] : Inv program s₀ (init s₀ : Monitor T σ ω ρ) s₀ where
  held := Ownership.held_none fun _ => id
  serial := .nil
  free _ := rfl
  rest := nofun
  results _ := rfl

-- a thread goes on outside of the section
theorem Inv.pass {phase : Phase σ ω ρ} (h : Inv program s₀ s q) (hout : ¬(s.phase t).Inside)
    (hphase : ¬phase.Inside) {returned : T → List (ω × ρ)}
    (hown : returned t ++ phase.pending = s.returned t ++ (s.phase t).pending)
    (hother : ∀ u, u ≠ t → returned u = s.returned u)
    : Inv program s₀ ({ s with returned }.move t phase) q where
  held := by
    apply h.held.congr
    intro u
    by_cases hu : u = t
    . subst hu
      simp [move, hphase, hout]
    . simp [move, hu]
  serial := h.serial
  free := h.free
  rest u op body hu := by
    by_cases heq : u = t
    . subst heq
      simp only [move, Function.update_self] at hu
      subst hu
      exact absurd trivial hphase
    . simp only [move, Function.update_of_ne heq] at hu
      exact h.rest u op body hu
  results u := by
    rw [move_lin]
    rw [← h.results u]
    by_cases hu : u = t
    . subst hu
      simpa [move] using hown
    . simp [move, hu, hother u hu]

theorem Inv.lock (h : Inv program s₀ s q) (hphase : s.phase t = .entering op)
    (howner : s.owner = none)
    : Inv program s₀ ({ s with owner := some t }.move t (.inside op (program op))) q where
  held := by
    have hheld := h.held
    rw [howner] at hheld
    apply hheld.lock
    . simp [move, Phase.Inside]
    . intro u hu
      simp [move, hu]
  serial := h.serial
  free := nofun
  rest u op' body hu := by
    by_cases heq : u = t
    . subst heq
      simp only [move, Function.update_self] at hu
      cases hu
      rw [← h.free howner]
      rfl
    . simp only [move, Function.update_of_ne heq] at hu
      exact h.rest u op' body hu
  results u := by
    refine Eq.trans ?_ (h.results u)
    by_cases hu : u = t
    . subst hu
      simp [move, hphase, Phase.pending]
    . simp [move, hu]

-- while a thread is inside, no other one is
theorem Inv.not_inside (h : Inv program s₀ s q) (ht : (s.phase t).Inside) (hu : u ≠ t)
    : ¬(s.phase u).Inside :=
  fun hinside => hu (h.held.unique hinside ht)

theorem Inv.access {change : σ → σ} {next : σ → Body σ ρ} (h : Inv program s₀ s q)
    (hphase : s.phase t = .inside op (.access change next))
    : Inv program s₀
        ({ s with state := change s.state }.move t (.inside op (next s.state))) q where
  held := by
    apply h.held.congr
    intro u
    by_cases hu : u = t
    . subst hu
      simp [move, hphase, Phase.Inside]
    . simp [move, hu]
  serial := h.serial
  free hfree := by
    have howner : s.owner = some t := (h.held t).mpr (inside_of_eq hphase)
    rw [show s.owner = none from hfree] at howner
    cases howner
  rest u op' body hu := by
    by_cases heq : u = t
    . subst heq
      simp only [move, Function.update_self] at hu
      cases hu
      exact h.rest u op _ hphase
    . simp only [move, Function.update_of_ne heq] at hu
      exact absurd (inside_of_eq hu) (h.not_inside (inside_of_eq hphase) heq)
  results u := by
    refine Eq.trans ?_ (h.results u)
    by_cases hu : u = t
    . subst hu
      simp [move, hphase, Phase.pending]
    . simp [move, hu]

theorem Inv.unlock {result : ρ} (h : Inv program s₀ s q)
    (hphase : s.phase t = .inside op (.ret result))
    : Inv program s₀ ({ s with owner := none, lin := s.lin ++ [(t, op, result)] }.move t
        (.returning op result)) s.state where
  held := by
    apply h.held.unlock (t := t) (inside_of_eq hphase)
    . simp [move, Phase.Inside]
    . intro u hu
      simp [move, hu]
  serial := h.serial.snoc trivial (h.rest t op _ hphase).symm
  free _ := rfl
  rest u op' body hu := by
    by_cases heq : u = t
    . subst heq
      simp [move] at hu
    . simp only [move, Function.update_of_ne heq] at hu
      exact absurd (inside_of_eq hu) (h.not_inside (inside_of_eq hphase) heq)
  results u := by
    have hresults := h.results u
    by_cases hu : u = t
    . subst hu
      rw [hphase] at hresults
      rw [show Phase.pending (.inside op (.ret result)) = [] from rfl] at hresults
      rw [List.append_nil] at hresults
      rw [move_lin]
      rw [Interleaving.own_concat_self]
      rw [← hresults]
      simp [move, Phase.pending]
    . rw [move_lin]
      rw [Interleaving.own_concat_of_ne (Ne.symm hu)]
      rw [← hresults]
      simp [move, hu]

theorem Inv.step {e : T × Action ω} (h : Inv program s₀ s q) (hstep : s.step program e = some s')
    : ∃ q, Inv program s₀ s' q := by
  rcases e with ⟨t, a⟩
  cases a with
  | call op =>
    simp only [Monitor.step] at hstep
    split at hstep
    . rename_i hphase
      cases hstep
      refine ⟨q, h.pass ?_ id ?_ fun _ _ => rfl⟩
      . simp [hphase, Phase.Inside]
      . simp [hphase, Phase.pending]
    . cases hstep
  | lock =>
    simp only [Monitor.step] at hstep
    split at hstep
    . rename_i hphase howner
      cases hstep
      exact ⟨q, h.lock hphase howner⟩
    . cases hstep
  | access =>
    simp only [Monitor.step] at hstep
    split at hstep
    . rename_i hphase
      cases hstep
      exact ⟨q, h.access hphase⟩
    . cases hstep
  | unlock =>
    simp only [Monitor.step] at hstep
    split at hstep
    . rename_i hphase
      cases hstep
      exact ⟨s.state, h.unlock hphase⟩
    . cases hstep
  | ret =>
    simp only [Monitor.step] at hstep
    split at hstep
    . rename_i op result hphase
      cases hstep
      refine ⟨q, h.pass ?_ id ?_ ?_⟩
      . simp [hphase, Phase.Inside]
      . simp [hphase, Phase.pending]
      . intro u hu
        simp [hu]
    . cases hstep

/--
Every run of the threads is one in which the operations take place one after the other: `lin` is that
order, and each thread has got the results of its own operations in it.
-/
theorem inv_of_run {es : List (T × Action ω)}
    (h : Run (Step program) Run.Always (init s₀) es s) : ∃ q, Inv program s₀ s q := by
  apply h.invariant ⟨s₀, inv_init⟩
  rintro s e s' ⟨q, hq⟩ _ hstep
  exact hq.step hstep

/-! ### What holds at every access -/

-- the states that a body goes through
def Body.Keeps (P : σ → Prop) : Body σ ρ → σ → Prop
  | ret _, s => P s
  | access change next, s => P s ∧ (next s).Keeps P (change s)

theorem Body.Keeps.holds {P : σ → Prop} {body : Body σ ρ} {s : σ} (h : body.Keeps P s) : P s := by
  cases body with
  | ret => exact h
  | access => exact h.1

-- `P` holds, and the thread in the section keeps it until it has left
structure Kept (P : σ → Prop) (s : Monitor T σ ω ρ) : Prop where
  holds : P s.state
  rest : ∀ t op body, s.phase t = .inside op body → body.Keeps P s.state

-- a thread goes on and leaves the state as it is
theorem Kept.pass {P : σ → Prop} {phase : Phase σ ω ρ} (h : Kept P s)
    (hstate : s'.state = s.state) (hphase : s'.phase = Function.update s.phase t phase)
    (hrest : ∀ op body, phase = .inside op body → body.Keeps P s.state) : Kept P s' where
  holds := by
    rw [hstate]
    exact h.holds
  rest u op body hu := by
    rw [hstate]
    rw [hphase] at hu
    by_cases heq : u = t
    . subst heq
      rw [Function.update_self] at hu
      exact hrest op body hu
    . rw [Function.update_of_ne heq] at hu
      exact h.rest u op body hu

theorem Kept.step {P : σ → Prop} {e : T × Action ω} (hkeep : ∀ op s, P s → (program op).Keeps P s)
    (hinv : Inv program s₀ s q) (h : Kept P s) (hstep : s.step program e = some s')
    : Kept P s' := by
  rcases e with ⟨t, a⟩
  cases a <;> simp only [Monitor.step] at hstep <;> split at hstep <;> cases hstep
  . exact h.pass rfl rfl nofun
  . refine h.pass rfl rfl ?_
    intro op body hbody
    cases hbody
    exact hkeep _ _ h.holds
  . rename_i op change next hphase
    have hrest := (h.rest t op _ hphase).2
    refine ⟨hrest.holds, fun u op' body hu => ?_⟩
    by_cases heq : u = t
    . subst heq
      simp only [move, Function.update_self] at hu
      cases hu
      exact hrest
    . simp only [move, Function.update_of_ne heq] at hu
      exact absurd (inside_of_eq hu) (hinv.not_inside (inside_of_eq hphase) heq)
  . exact h.pass rfl rfl nofun
  . exact h.pass rfl rfl nofun

/--
What every operation keeps from access to access holds in every state, also while a thread is in the
section.
-/
theorem state_of_run {P : σ → Prop} {es : List (T × Action ω)}
    (hkeep : ∀ op s, P s → (program op).Keeps P s) (h₀ : P s₀)
    (h : Run (Step program) Run.Always (init s₀) es s) : P s.state := by
  have hboth : (∃ q, Inv program s₀ s q) ∧ Kept P s := by
    apply h.invariant ⟨⟨s₀, inv_init⟩, h₀, nofun⟩
    rintro s e s' ⟨⟨q, hq⟩, hkept⟩ _ hstep
    exact ⟨hq.step hstep, hkept.step hkeep hq hstep⟩
  exact hboth.2.holds

/-! ### Later steps -/

theorem lin_step {e : T × Action ω} (h : s.step program e = some s')
    : ∃ l, s'.lin = s.lin ++ l := by
  rcases e with ⟨t, a⟩
  cases a <;> simp only [Monitor.step] at h <;> split at h <;> cases h
  . exact ⟨[], by simp [move]⟩
  . exact ⟨[], by simp [move]⟩
  . exact ⟨[], by simp [move]⟩
  . exact ⟨_, rfl⟩
  . exact ⟨[], by simp [move]⟩

-- an operation takes its place after all those that have been given one before
theorem lin_run {es : List (T × Action ω)} (h : Run (Step program) Run.Always s es s')
    : ∃ l, s'.lin = s.lin ++ l := by
  apply h.invariant ⟨[], by simp⟩
  rintro s₁ e s₂ ⟨l, hl⟩ _ hstep
  rcases lin_step hstep with ⟨l', hl'⟩
  exact ⟨l ++ l', by rw [hl', hl, List.append_assoc]⟩

/-! ### Abstract objects -/

-- an abstract object that answers like the body of each operation
def Refines (program : ω → Body σ ρ) (apply : ω → α → ρ × α) (R : σ → α → Prop) : Prop :=
  ∀ op s a, R s a → ((program op).exec s).1 = (apply op a).1 ∧
    R ((program op).exec s).2 (apply op a).2

omit [DecidableEq T] in
theorem Serial.refine {apply : ω → α → ρ × α} {R : σ → α → Prop} {a₀ : α}
    {lin : List (T × ω × ρ)} (href : Refines program apply R) (h₀ : R s₀ a₀)
    (h : Serial (fun op => (program op).exec) s₀ lin q)
    : ∃ a, Serial apply a₀ lin a ∧ R q a := by
  induction h with
  | nil => exact ⟨a₀, .nil, h₀⟩
  | @snoc es s s' e _ _ hstep ih =>
    rcases ih with ⟨a, hserial, hrel⟩
    rcases href e.2.1 s a hrel with ⟨hresult, hnext⟩
    rw [show (program e.2.1).exec s = (e.2.2, s') from hstep] at hresult hnext
    exact ⟨(apply e.2.1 a).2, hserial.snoc trivial (Prod.ext hresult.symm rfl), hnext⟩

/--
An object that answers like an abstract one answers the threads like that one: in the order `lin`.
-/
theorem linearizable {apply : ω → α → ρ × α} {R : σ → α → Prop} {a₀ : α}
    {es : List (T × Action ω)} (href : Refines program apply R) (h₀ : R s₀ a₀)
    (h : Run (Step program) Run.Always (init s₀) es s)
    : ∃ a, Serial apply a₀ s.lin a ∧ (s.owner = none → R s.state a) ∧
        ∀ t, s.returned t ++ (s.phase t).pending = Interleaving.own t s.lin := by
  rcases inv_of_run h with ⟨q, hq⟩
  rcases Serial.refine href h₀ hq.serial with ⟨a, ha, hrel⟩
  refine ⟨a, ha, ?_, hq.results⟩
  intro howner
  rw [hq.free howner]
  exact hrel

end Monitor
