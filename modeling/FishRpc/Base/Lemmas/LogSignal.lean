import FishRpc.Base.Impl.LogSignal
import FishRpc.Base.Lemmas.LogWaiter
import FishRpc.Lib.Ownership

/-!
This module contains the guards of `mut_` with `waiter_` as a refinement of `LogWaiter`: as long as no
destructor behind an unlock by hand frees the mutex that another thread holds, each critical section
looks like one step, and so does the test of `readyBuf_` together with the wait.
-/

namespace Fish

-- in a section that the guard protects
def SignalPhase.guarded {α : Type} : SignalPhase α → Bool
  | inside _ | tested | leaving _ => true
  | outside | entering _ | asleep | woken | unlocked | notified => false

-- has made a buffer ready and not called `notify_one` yet
def SignalPhase.owes {α : Type} : SignalPhase α → Bool
  | leaving flag => flag
  | unlocked => true
  | outside | entering _ | inside _ | tested | asleep | woken | notified => false

def SignalPhase.sleeps {α : Type} : SignalPhase α → Bool
  | asleep => true
  | outside | entering _ | inside _ | tested | woken | leaving _ | unlocked | notified => false

namespace LogSignal

variable {T α : Type} [DecidableEq T] {logger t u : T} {s s' : LogSignal T α} {a : Action α}

/-! ### The mutex -/

def Inside (s : LogSignal T α) (t : T) : Prop := (s.phase t).guarded = true

-- the destructor behind an unlock by hand finds the mutex free
def Free (s : LogSignal T α) : T × Action α → Prop
  | (t, .destroy) => s.phase t = .notified → s.owner = none
  | _ => True

-- what a thread relies on in its phase
def Admits (loop : LogLoop α) (logger t : T) : SignalPhase α → Prop
  | .entering e | .inside e => Enters loop logger t e
  | .tested => t = logger ∧ loop.point = .waiting ∧ loop.log.readyBuf = []
  | .asleep | .woken => t = logger ∧ loop.point = .waiting
  | .outside | .leaving _ | .unlocked | .notified => True

@[simp] theorem move_loop (s : LogSignal T α) (t : T) (phase : SignalPhase α)
    : (s.move t phase).loop = s.loop := rfl

@[simp] theorem move_owner (s : LogSignal T α) (t : T) (phase : SignalPhase α)
    : (s.move t phase).owner = s.owner := rfl

theorem inside_move_self {phase : SignalPhase α}
    : (s.move t phase).Inside t ↔ phase.guarded = true := by
  simp [Inside, move]

theorem inside_move_of_ne {phase : SignalPhase α} (h : u ≠ t)
    : (s.move t phase).Inside u ↔ s.Inside u := by
  simp [Inside, move, h]

theorem held_move {phase : SignalPhase α} (h : Ownership.Held s.owner s.Inside)
    (hguarded : phase.guarded = (s.phase t).guarded)
    : Ownership.Held (s.move t phase).owner (s.move t phase).Inside := by
  apply h.congr
  intro u
  by_cases hu : u = t
  . subst hu
    rw [inside_move_self]
    rw [hguarded]
    exact Iff.rfl
  . exact inside_move_of_ne hu

theorem held_lock {phase : SignalPhase α} (h : Ownership.Held s.owner s.Inside)
    (hfree : s.owner = none) (hguarded : phase.guarded = true)
    : Ownership.Held (some t) ({ s with owner := some t }.move t phase).Inside := by
  rw [hfree] at h
  apply h.lock
  . exact inside_move_self.mpr hguarded
  . intro u hu
    exact inside_move_of_ne hu

theorem held_unlock {phase : SignalPhase α} (h : Ownership.Held s.owner s.Inside)
    (hinside : (s.phase t).guarded = true) (hguarded : phase.guarded = false)
    : Ownership.Held none ({ s with owner := none }.move t phase).Inside := by
  apply h.unlock hinside
  . rw [inside_move_self]
    rw [hguarded]
    exact Bool.false_ne_true
  . intro u hu
    exact inside_move_of_ne hu

omit [DecidableEq T] in
theorem Admits.change {loop loop' : LogLoop α} {phase : SignalPhase α}
    (h : Admits loop logger t phase) (hpoint : t = logger → loop'.point = loop.point)
    (hready : phase = .tested → loop'.log.readyBuf = loop.log.readyBuf)
    : Admits loop' logger t phase := by
  cases phase with
  | entering e | inside e =>
    cases e with
    | append => exact h
    | swap => exact ⟨h.1, (hpoint h.1).trans h.2⟩
    | report => exact ⟨h.1, (hpoint h.1).trans h.2.1, h.2.2⟩
    | _ => exact h
  | tested => exact ⟨h.1, (hpoint h.1).trans h.2.1, (hready rfl).trans h.2.2⟩
  | asleep | woken => exact ⟨h.1, (hpoint h.1).trans h.2⟩
  | outside | leaving | unlocked | notified => trivial

omit [DecidableEq T] in
theorem Admits.roused {loop : LogLoop α} {phase : SignalPhase α} (h : Admits loop logger t phase)
    : Admits loop logger t phase.roused := by
  cases phase <;> exact h

theorem admits_move {loop : LogLoop α} {phase : SignalPhase α}
    (hphase : Admits loop logger t phase)
    (hother : ∀ u, u ≠ t → Admits loop logger u (s.phase u)) (u : T)
    : Admits loop logger u ((s.move t phase).phase u) := by
  by_cases hu : u = t
  . subst hu
    simpa [move] using hphase
  . simpa [move, hu] using hother u hu

theorem notifyOne_phase (h : s.phase t = .unlocked) : (s.notifyOne logger).phase t = .unlocked := by
  by_cases hlogger : t = logger
  . subst hlogger
    simp [notifyOne, move, h, SignalPhase.roused]
  . simp [notifyOne, move, hlogger, h]

variable [LogChar α]

/--
Everything that a step can do.
-/
inductive Moved (logger : T) (s : LogSignal T α) (t : T) : Action α → LogSignal T α → Prop where
  | enter (e : LogLoop.Event α) (phase : s.phase t = .outside) (enters : Enters s.loop logger t e)
    : Moved logger s t (.enter e) (s.move t (.entering e))
  | lock (e : LogLoop.Event α) (phase : s.phase t = .entering e) (free : s.owner = none)
    : Moved logger s t .lock ({ s with owner := some t }.move t (.inside e))
  | relock (phase : s.phase t = .woken) (free : s.owner = none)
    : Moved logger s t .lock ({ s with owner := some t }.move t (.inside .swap))
  | test (phase : s.phase t = .inside .swap) (empty : s.loop.log.readyBuf = [])
    : Moved logger s t .test (s.move t .tested)
  | wait (phase : s.phase t = .tested)
    : Moved logger s t .wait ({ s with owner := none }.move t .asleep)
  | rouse (phase : s.phase t = .asleep) : Moved logger s t .rouse (s.move t .woken)
  | work (e : LogLoop.Event α) (loop : LogLoop α) (phase : s.phase t = .inside e)
    (step : LogLoop.Step s.loop e loop)
    : Moved logger s t .work ({ s with loop }.move t (.leaving (s.changes e)))
  | unlock (phase : s.phase t = .leaving true)
    : Moved logger s t .unlock ({ s with owner := none }.move t .unlocked)
  | notify (phase : s.phase t = .unlocked)
    : Moved logger s t .notify ((s.notifyOne logger).move t .notified)
  | destroy (phase : s.phase t = .leaving false)
    : Moved logger s t .destroy ({ s with owner := none }.move t .outside)
  | surplus (phase : s.phase t = .notified)
    : Moved logger s t .destroy ({ s with owner := none }.move t .outside)
  | run (e : LogLoop.Event α) (loop : LogLoop α) (phase : s.phase t = .outside)
    (runs : LogMutex.Runs logger t e) (step : LogLoop.Step s.loop e loop)
    : Moved logger s t (.run e) { s with loop }

theorem moved_lock (h : Step logger s (t, .lock) s') : Moved logger s t .lock s' := by
  simp only [Step, step] at h
  split at h
  . rename_i e hphase hfree
    cases h
    exact .lock e hphase hfree
  . rename_i hphase hfree
    cases h
    exact .relock hphase hfree
  . cases h

theorem moved_work (h : Step logger s (t, .work) s') : Moved logger s t .work s' := by
  simp only [Step, step] at h
  split at h
  . rename_i e hphase
    split at h
    . rename_i loop hstep
      cases h
      exact .work e loop hphase hstep
    . cases h
  . cases h

theorem moved_destroy (h : Step logger s (t, .destroy) s') : Moved logger s t .destroy s' := by
  simp only [Step, step] at h
  split at h
  . rename_i hphase
    cases h
    exact .destroy hphase
  . rename_i hphase
    cases h
    exact .surplus hphase
  . cases h

theorem moved_run {e : LogLoop.Event α} (h : Step logger s (t, .run e) s')
    : Moved logger s t (.run e) s' := by
  simp only [Step, step] at h
  split at h
  . rename_i hphase
    split at h
    . rename_i hruns
      split at h
      . rename_i loop hstep
        cases h
        exact .run e loop hphase hruns hstep
      . cases h
    . cases h
  . cases h

theorem moved_of_step (h : Step logger s (t, a) s') : Moved logger s t a s' := by
  cases a with
  | lock => apply moved_lock h
  | work => apply moved_work h
  | destroy => apply moved_destroy h
  | run e => apply moved_run h
  | enter e =>
    simp only [Step, step] at h
    split at h
    . rename_i hphase
      split at h
      . rename_i henters
        cases h
        exact .enter e hphase henters
      . cases h
    . cases h
  | test =>
    simp only [Step, step] at h
    split at h
    . rename_i hphase
      split at h
      . rename_i hempty
        cases h
        exact .test hphase hempty
      . cases h
    . cases h
  | wait =>
    simp only [Step, step] at h
    split at h
    . rename_i hphase
      cases h
      exact .wait hphase
    . cases h
  | rouse =>
    simp only [Step, step] at h
    split at h
    . rename_i hphase
      cases h
      exact .rouse hphase
    . cases h
  | unlock =>
    simp only [Step, step] at h
    split at h
    . rename_i hphase
      cases h
      exact .unlock hphase
    . cases h
  | notify =>
    simp only [Step, step] at h
    split at h
    . rename_i hphase
      cases h
      exact .notify hphase
    . cases h

/-! ### Critical sections -/

structure Guarded (logger : T) (s : LogSignal T α) : Prop where
  conserved : s.loop.Conserved
  held : Ownership.Held s.owner s.Inside
  admits : ∀ t, Admits s.loop logger t (s.phase t)

omit [DecidableEq T] in
theorem guarded_init (logger : T) : Guarded logger (init : LogSignal T α) where
  conserved := LogLoop.conserved_init
  held := Ownership.held_none fun _ h => Bool.noConfusion h
  admits _ := trivial

omit [LogChar α] in
theorem Guarded.notifyOne (h : Guarded logger s) : Guarded logger (s.notifyOne logger) := by
  refine ⟨h.conserved, held_move h.held ?_, admits_move (h.admits logger).roused ?_⟩
  . cases s.phase logger <;> rfl
  . exact fun u _ => h.admits u

omit [DecidableEq T] [LogChar α] in
theorem enters_cases {loop : LogLoop α} {e : LogLoop.Event α} (h : Enters loop logger t e)
    : (∃ buf, e = .append buf ∧ t ≠ logger) ∨ t = logger ∧ LogWaiter.appends e = false := by
  cases e with
  | append buf => exact Or.inl ⟨buf, rfl, h.1⟩
  | swap | report => exact Or.inr ⟨h.1, rfl⟩
  | _ => exact absurd h id

omit [DecidableEq T] [LogChar α] in
theorem runs_cases {e : LogLoop.Event α} (h : LogMutex.Runs logger t e)
    : t = logger ∧ LogWaiter.appends e = false := by
  cases e with
  | append | swap | report => exact absurd h id
  | _ => exact ⟨h, rfl⟩

-- a section whose step only its own thread notices
theorem Guarded.work {e : LogLoop.Event α} {loop : LogLoop α} (h : Guarded logger s)
    (hphase : s.phase t = .inside e) (hstep : LogLoop.Step s.loop e loop) (flag : Bool)
    : Guarded logger ({ s with loop }.move t (.leaving flag)) := by
  have henters := h.admits t
  rw [hphase] at henters
  refine ⟨h.conserved.conserved_step hstep, held_move (s := { s with loop }) h.held ?_, ?_⟩
  . rw [hphase]
    rfl
  . refine admits_move trivial ?_
    intro u hu
    refine (h.admits u).change ?_ ?_
    . rintro rfl
      rcases enters_cases henters with ⟨buf, rfl, _⟩ | ⟨hlogger, _⟩
      . exact (LogWaiter.append_point h.conserved hstep).1
      . exact absurd hlogger.symm hu
    . intro htested
      have htest : s.Inside t := by
        unfold Inside
        rw [hphase]
        rfl
      have hother : s.Inside u := by
        unfold Inside
        rw [htested]
        rfl
      exact absurd (h.held.unique hother htest) hu

theorem Guarded.run {e : LogLoop.Event α} {loop : LogLoop α} (h : Guarded logger s)
    (hphase : s.phase t = .outside) (hruns : LogMutex.Runs logger t e)
    (hstep : LogLoop.Step s.loop e loop) : Guarded logger { s with loop } := by
  rcases runs_cases hruns with ⟨rfl, _⟩
  refine ⟨h.conserved.conserved_step hstep, h.held, ?_⟩
  intro u
  by_cases hu : u = t
  . subst hu
    rw [hphase]
    trivial
  . apply (h.admits u).change
    . exact fun heq => absurd heq hu
    . intro htested
      have hadmits := h.admits u
      rw [htested] at hadmits
      exact absurd hadmits.1 hu

theorem Guarded.step {e : T × Action α} (h : Guarded logger s) (hfree : s.Free e)
    (hstep : Step logger s e s') : Guarded logger s' := by
  rcases e with ⟨t, a⟩
  cases moved_of_step hstep with
  | enter e phase enters =>
    refine ⟨h.conserved, held_move h.held (by rw [phase]; rfl), ?_⟩
    exact admits_move enters fun u _ => h.admits u
  | lock e phase free =>
    have hadmits := h.admits t
    rw [phase] at hadmits
    exact ⟨h.conserved, held_lock h.held free rfl, admits_move hadmits fun u _ => h.admits u⟩
  | relock phase free =>
    have hadmits := h.admits t
    rw [phase] at hadmits
    exact ⟨h.conserved, held_lock h.held free rfl, admits_move hadmits fun u _ => h.admits u⟩
  | test phase empty =>
    have hadmits := h.admits t
    rw [phase] at hadmits
    refine ⟨h.conserved, held_move h.held (by rw [phase]; rfl), ?_⟩
    exact admits_move ⟨hadmits.1, hadmits.2, empty⟩ fun u _ => h.admits u
  | wait phase =>
    have hadmits := h.admits t
    rw [phase] at hadmits
    refine ⟨h.conserved, held_unlock h.held (by rw [phase]; rfl) rfl, ?_⟩
    exact admits_move ⟨hadmits.1, hadmits.2.1⟩ fun u _ => h.admits u
  | rouse phase =>
    have hadmits := h.admits t
    rw [phase] at hadmits
    refine ⟨h.conserved, held_move h.held (by rw [phase]; rfl), ?_⟩
    exact admits_move hadmits fun u _ => h.admits u
  | work e loop phase step => exact h.work phase step _
  | unlock phase =>
    refine ⟨h.conserved, held_unlock h.held (by rw [phase]; rfl) rfl, ?_⟩
    exact admits_move trivial fun u _ => h.admits u
  | notify phase =>
    have hnotified := h.notifyOne
    refine ⟨hnotified.conserved, held_move hnotified.held ?_, ?_⟩
    . rw [notifyOne_phase phase]
      rfl
    . exact admits_move trivial fun u _ => hnotified.admits u
  | destroy phase =>
    refine ⟨h.conserved, held_unlock h.held (by rw [phase]; rfl) rfl, ?_⟩
    exact admits_move trivial fun u _ => h.admits u
  | surplus phase =>
    have howner : s.owner = none := hfree phase
    have hsame : ({ s with owner := none } : LogSignal T α) = s := by rw [← howner]
    rw [hsame]
    refine ⟨h.conserved, held_move h.held (by rw [phase]; rfl), ?_⟩
    exact admits_move trivial fun u _ => h.admits u
  | run e loop phase runs step => exact h.run phase runs step

/-! ### One step for each section -/

def waiter (logger : T) (s : LogSignal T α) : LogWaiter T α where
  loop := s.loop
  sleeping := (s.phase logger).sleeps
  notifying t := decide (t ≠ logger) && (s.phase t).owes

omit [LogChar α] in
theorem waiter_move_logger (phase : SignalPhase α)
    : (s.move logger phase).waiter logger = { s.waiter logger with sleeping := phase.sleeps } := by
  simp only [waiter, move, LogWaiter.mk.injEq, Function.update_self, true_and]
  funext u
  by_cases hu : u = logger
  . simp [hu]
  . simp [hu]

omit [LogChar α] in
theorem waiter_move_caller (h : t ≠ logger) (phase : SignalPhase α)
    : (s.move t phase).waiter logger
        =
      { s.waiter logger with
        notifying := Function.update (s.waiter logger).notifying t phase.owes } := by
  simp only [waiter, move, LogWaiter.mk.injEq, Function.update_of_ne (Ne.symm h), true_and]
  funext u
  by_cases hu : u = t
  . simp [hu, h]
  . simp [hu]

-- what `LogWaiter` does not see
omit [LogChar α] in
theorem waiter_move {phase : SignalPhase α} (hsleeps : phase.sleeps = (s.phase t).sleeps)
    (howes : phase.owes = (s.phase t).owes) : (s.move t phase).waiter logger = s.waiter logger := by
  by_cases hlogger : t = logger
  . subst hlogger
    rw [waiter_move_logger]
    rw [hsleeps]
    rfl
  . have hnotifying : (s.waiter logger).notifying t = phase.owes := by simp [waiter, hlogger, howes]
    rw [waiter_move_caller hlogger]
    rw [← hnotifying]
    rw [Function.update_eq_self]

theorem waiter_append {buf : List α} {loop : LogLoop α} (hphase : s.phase t = .inside (.append buf))
    (hlogger : t ≠ logger) (hstep : LogLoop.Step s.loop (.append buf) loop)
    : LogWaiter.Step (s.waiter logger) (.append t buf)
        (({ s with loop }.move t (.leaving (s.changes (.append buf)))).waiter logger) := by
  have hquiet : (s.waiter logger).notifying t = false := by simp [waiter, hphase, SignalPhase.owes]
  have hloop : (s.waiter logger).loop.step (.append buf) = some (.ok loop) := hstep
  rw [waiter_move_caller hlogger]
  simp only [LogWaiter.Step, LogWaiter.step, hquiet, hloop, Bool.false_eq_true, if_false]
  rfl

-- the log thread is awake
theorem waiter_work {e : LogLoop.Event α} (hawake : (s.phase logger).sleeps = false)
    (hevent : LogWaiter.appends e = false) {loop : LogLoop α} (hstep : LogLoop.Step s.loop e loop)
    : LogWaiter.Step (s.waiter logger) (.work e) { s.waiter logger with loop } := by
  have hsleeping : (s.waiter logger).sleeping = false := hawake
  have hloop : (s.waiter logger).loop.step e = some (.ok loop) := hstep
  simp [LogWaiter.Step, LogWaiter.step, hsleeping, hevent, hloop]

omit [LogChar α] in
theorem waiter_notifyOne
    : (s.notifyOne logger).waiter logger = { s.waiter logger with sleeping := false } := by
  have hawake : (s.phase logger).roused.sleeps = false := by cases s.phase logger <;> rfl
  unfold notifyOne
  rw [waiter_move_logger]
  rw [hawake]

theorem waiter_notify (logger : T) (h : s.phase t = .unlocked)
    : ((s.notifyOne logger).move t .notified).waiter logger = s.waiter logger ∨
      LogWaiter.Step (s.waiter logger) (.notify t)
        (((s.notifyOne logger).move t .notified).waiter logger) := by
  by_cases hlogger : t = logger
  . subst hlogger
    left
    rw [waiter_move_logger]
    rw [waiter_notifyOne]
    simp [waiter, h, SignalPhase.sleeps]
  . right
    have howes : (s.waiter logger).notifying t = true := by
      simp [waiter, h, hlogger, SignalPhase.owes]
    rw [waiter_move_caller hlogger]
    rw [waiter_notifyOne]
    simp only [LogWaiter.Step, LogWaiter.step, howes, if_true]
    rfl

theorem refines_step {e : T × Action α} (h : Guarded logger s) (hstep : Step logger s e s')
    : s'.waiter logger = s.waiter logger ∨
      ∃ e', LogWaiter.Step (s.waiter logger) e' (s'.waiter logger) := by
  rcases e with ⟨t, a⟩
  have hadmits := h.admits t
  cases moved_of_step hstep with
  | enter e phase enters => exact Or.inl (waiter_move (by rw [phase]; rfl) (by rw [phase]; rfl))
  | lock e phase free =>
    refine Or.inl (waiter_move (s := { s with owner := some t }) ?_ ?_)
    . rw [phase]
      rfl
    . rw [phase]
      rfl
  | relock phase free =>
    refine Or.inl (waiter_move (s := { s with owner := some t }) ?_ ?_)
    . rw [phase]
      rfl
    . rw [phase]
      rfl
  | test phase empty => exact Or.inl (waiter_move (by rw [phase]; rfl) (by rw [phase]; rfl))
  | wait phase =>
    rw [phase] at hadmits
    rcases hadmits with ⟨rfl, hpoint, hempty⟩
    refine Or.inr ⟨.wait, ?_⟩
    rw [waiter_move_logger]
    simp [LogWaiter.Step, LogWaiter.step, waiter, hpoint, hempty, phase, SignalPhase.sleeps]
  | rouse phase =>
    rw [phase] at hadmits
    rcases hadmits with ⟨rfl, hpoint⟩
    refine Or.inr ⟨.wake, ?_⟩
    rw [waiter_move_logger]
    simp [LogWaiter.Step, LogWaiter.step, waiter, phase, SignalPhase.sleeps]
  | work e loop phase step =>
    rw [phase] at hadmits
    rcases enters_cases hadmits with ⟨buf, rfl, hcaller⟩ | ⟨rfl, hevent⟩
    . exact Or.inr ⟨_, waiter_append phase hcaller step⟩
    . have hawake : (s.phase t).sleeps = false := by
        rw [phase]
        rfl
      have hsame : ({ s with loop }.move t (.leaving (s.changes e))).waiter t
          = { s.waiter t with loop } := by
        rw [waiter_move_logger]
        simp [waiter, phase, SignalPhase.sleeps]
      refine Or.inr ⟨.work e, ?_⟩
      rw [hsame]
      apply waiter_work hawake hevent step
  | unlock phase =>
    refine Or.inl (waiter_move (s := { s with owner := none }) ?_ ?_)
    . rw [phase]
      rfl
    . rw [phase]
      rfl
  | notify phase =>
    rcases waiter_notify logger phase with hsame | hnext
    . exact Or.inl hsame
    . exact Or.inr ⟨_, hnext⟩
  | destroy phase =>
    refine Or.inl (waiter_move (s := { s with owner := none }) ?_ ?_)
    . rw [phase]
      rfl
    . rw [phase]
      rfl
  | surplus phase =>
    refine Or.inl (waiter_move (s := { s with owner := none }) ?_ ?_)
    . rw [phase]
      rfl
    . rw [phase]
      rfl
  | run e loop phase runs step =>
    rcases runs_cases runs with ⟨rfl, hevent⟩
    refine Or.inr ⟨.work e, waiter_work ?_ hevent step⟩
    rw [phase]
    rfl

/--
The guards go through a run of the steps of `LogWaiter`.
-/
theorem waiter_of_run {es : List (T × Action α)} (h : Run (Step logger) Free init es s)
    : Guarded logger s ∧
      ∃ es', Run LogWaiter.Step Run.Always LogWaiter.init es' (s.waiter logger) := by
  have hinv : ∀ (s : LogSignal T α) e s', Guarded logger s → s.Free e → Step logger s e s' →
      Guarded logger s' :=
    fun s e s' hs hfree hstep => hs.step hfree hstep
  refine ⟨h.invariant (guarded_init logger) hinv, ?_⟩
  have hruns := h.abstracts (f := waiter logger) (guarded_init logger) hinv
    fun s e s' hs _ hstep => refines_step hs hstep
  have hinit : (init : LogSignal T α).waiter logger = LogWaiter.init := by
    simp [waiter, init, LogWaiter.init, SignalPhase.sleeps, SignalPhase.owes]
  rw [hinit] at hruns
  exact hruns

end LogSignal
end Fish
