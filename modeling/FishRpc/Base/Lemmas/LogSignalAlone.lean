import FishRpc.Base.Lemmas.LogSignal

/-!
This module contains what one thread does by itself between its steps outside of the guards, and from
it that the log thread misses no wake-up: where nobody else is in `apendMessage`, it gets every block
that has been handed over into the file.
-/

namespace Fish
namespace LogSignal

open LogThread (Fitted maxMessage)
open LogWaiter (Own Alone contents unwritten swappedBlocks)

variable {T α : Type} [DecidableEq T] [LogChar α] {logger t : T} {s s' s'' : LogSignal T α}
  {a : Action α} {loop : LogLoop α} {e : LogLoop.Event α}

/-! ### One thread -/

-- the configuration decides whether the log thread reports, and `report` is the text
def Mine (printMes : Bool) (report : List α) : Action α → Prop
  | .enter (.report buf) => buf = report
  | .run e => Own printMes report e
  | .rouse => False
  | .enter _ | .lock | .test | .wait | .work | .unlock | .notify | .destroy => True

def By (t : T) (printMes : Bool) (report : List α) (s : LogSignal T α) (e : T × Action α) : Prop :=
  s.Free e ∧ e.1 = t ∧ Mine printMes report e.2

-- the thread goes on by itself
def Goes (logger t : T) (printMes : Bool) (report : List α) (s s' : LogSignal T α) : Prop :=
  ∃ es, Run (Step logger) (By t printMes report) s es s'

variable (printMes : Bool) (report : List α)

theorem goes_step (hstep : Step logger s (t, a) s') (hfree : s.Free (t, a))
    (hmine : Mine printMes report a) : Goes logger t printMes report s s' :=
  ⟨_, .snoc .nil ⟨hfree, rfl, hmine⟩ hstep⟩

variable {printMes report}

theorem Goes.trans (h : Goes logger t printMes report s s') (h' : Goes logger t printMes report s' s'')
    : Goes logger t printMes report s s'' := by
  rcases h with ⟨es, hrun⟩
  rcases h' with ⟨es', hrun'⟩
  exact ⟨_, hrun.append hrun'⟩

-- the thread has left its section, in which it has changed the buffer or not
structure Left (logger t : T) (s s' : LogSignal T α) (loop : LogLoop α) (flag : Bool) : Prop where
  loop : s'.loop = loop
  owner : s'.owner = none
  self : s'.phase t = .outside
  others : ∀ u, u ≠ t →
    s'.phase u = if flag = true ∧ u = logger then (s.phase u).roused else s.phase u

-- it does one more step in front
theorem Left.cons {flag : Bool} (hstep : Step logger s (t, a) s') (hfree : s.Free (t, a))
    (hmine : Mine printMes report a) (hothers : ∀ u, u ≠ t → s'.phase u = s.phase u)
    (h : ∃ s'', Goes logger t printMes report s' s'' ∧ Left logger t s' s'' loop flag)
    : ∃ s'', Goes logger t printMes report s s'' ∧ Left logger t s s'' loop flag := by
  rcases h with ⟨s'', hgoes, hleft⟩
  have hfirst := goes_step printMes report hstep hfree hmine
  refine ⟨s'', hfirst.trans hgoes, hleft.loop, hleft.owner, hleft.self, ?_⟩
  intro u hu
  rw [hleft.others u hu]
  rw [hothers u hu]

variable (logger printMes report)

theorem leaves_notified (h : s.phase t = .notified) (hfree : s.owner = none)
    : ∃ s', Goes logger t printMes report s s' ∧ Left logger t s s' s.loop false := by
  have hstep : Step logger s (t, .destroy) ({ s with owner := none }.move t .outside) := by
    simp [Step, step, h]
  refine ⟨_, goes_step _ _ hstep (fun _ => hfree) trivial, rfl, rfl, ?_, ?_⟩
  . simp [move]
  . intro u hu
    simp [move, hu]

theorem leaves_unlocked (h : s.phase t = .unlocked) (hfree : s.owner = none)
    : ∃ s', Goes logger t printMes report s s' ∧ Left logger t s s' s.loop true := by
  have hstep : Step logger s (t, .notify) ((s.notifyOne logger).move t .notified) := by
    simp [Step, step, h]
  have hnotified : ((s.notifyOne logger).move t .notified).phase t = .notified := by simp [move]
  rcases leaves_notified logger printMes report hnotified hfree with ⟨s', hgoes, hleft⟩
  have hfirst := goes_step printMes report hstep trivial trivial
  refine ⟨s', hfirst.trans hgoes, hleft.loop, hleft.owner, hleft.self, ?_⟩
  intro u hu
  rw [hleft.others u hu]
  by_cases hlogger : u = logger
  . subst hlogger
    simp [move, notifyOne, hu]
  . simp [move, notifyOne, hu, hlogger]

theorem leaves {flag : Bool} (h : s.phase t = .leaving flag)
    : ∃ s', Goes logger t printMes report s s' ∧ Left logger t s s' s.loop flag := by
  cases flag with
  | false =>
    have hstep : Step logger s (t, .destroy) ({ s with owner := none }.move t .outside) := by
      simp [Step, step, h]
    have hfree : s.Free (t, .destroy) := by
      intro hphase
      rw [h] at hphase
      cases hphase
    refine ⟨_, goes_step _ _ hstep hfree trivial, rfl, rfl, ?_, ?_⟩
    . simp [move]
    . intro u hu
      simp [move, hu]
  | true =>
    have hstep : Step logger s (t, .unlock) ({ s with owner := none }.move t .unlocked) := by
      simp [Step, step, h]
    refine Left.cons hstep trivial trivial ?_ (leaves_unlocked logger printMes report ?_ rfl)
    . intro u hu
      simp [move, hu]
    . simp [move]

theorem works (h : s.phase t = .inside e) (hstep : LogLoop.Step s.loop e loop)
    : ∃ s', Goes logger t printMes report s s' ∧ Left logger t s s' loop (s.changes e) := by
  have hloop : s.loop.step e = some (.ok loop) := hstep
  have hwork : Step logger s (t, .work) ({ s with loop }.move t (.leaving (s.changes e))) := by
    simp [Step, step, h, hloop]
  refine Left.cons hwork trivial trivial ?_ (leaves logger printMes report ?_)
  . intro u hu
    simp [move, hu]
  . simp [move]

theorem locks (h : s.phase t = .entering e) (hfree : s.owner = none)
    (hstep : LogLoop.Step s.loop e loop)
    : ∃ s', Goes logger t printMes report s s' ∧ Left logger t s s' loop (s.changes e) := by
  have hlock : Step logger s (t, .lock) ({ s with owner := some t }.move t (.inside e)) := by
    simp [Step, step, h, hfree]
  refine Left.cons hlock trivial trivial ?_ (works logger printMes report ?_ hstep)
  . intro u hu
    simp [move, hu]
  . simp [move]

-- a whole section
theorem passes (h : s.phase t = .outside) (hfree : s.owner = none)
    (henters : Enters s.loop logger t e) (hmine : Mine printMes report (.enter e))
    (hstep : LogLoop.Step s.loop e loop)
    : ∃ s', Goes logger t printMes report s s' ∧ Left logger t s s' loop (s.changes e) := by
  have henter : Step logger s (t, .enter e) (s.move t (.entering e)) := by
    simp [Step, step, h, henters]
  refine Left.cons henter trivial hmine ?_ (locks logger printMes report ?_ hfree hstep)
  . intro u hu
    simp [move, hu]
  . simp [move]

/-! ### The log thread -/

-- nobody is in `apendMessage`, and the log thread is outside of its guard too
structure Rests (s : LogSignal T α) (loop : LogLoop α) : Prop where
  loop : s.loop = loop
  owner : s.owner = none
  phase : ∀ t, s.phase t = .outside

omit [LogChar α] in
theorem Left.rests {flag : Bool} (h : Left logger logger s s' loop flag)
    (hothers : ∀ u, u ≠ logger → s.phase u = .outside) : Rests s' loop where
  loop := h.loop
  owner := h.owner
  phase u := by
    by_cases hu : u = logger
    . rw [hu]
      exact h.self
    . rw [h.others u hu]
      rw [if_neg fun hboth => hu hboth.2]
      exact hothers u hu

variable {printMes report} {loop' : LogLoop α}

omit [DecidableEq T] in
theorem enters_or_runs (hown : Own printMes report e) (hstep : LogLoop.Step loop e loop')
    : Enters loop logger logger e ∧ Mine printMes report (.enter e) ∨
      LogMutex.Runs logger logger e := by
  cases e with
  | append buf => exact absurd hown id
  | swap =>
    refine Or.inl ⟨⟨rfl, ?_⟩, trivial⟩
    by_contra hpoint
    simp [LogLoop.Step, LogLoop.step, hpoint] at hstep
  | report buf =>
    refine Or.inl ⟨⟨rfl, ?_⟩, hown⟩
    by_contra hpoint
    simp [LogLoop.Step, LogLoop.step, hpoint] at hstep
  | _ => exact Or.inr rfl

theorem Rests.goes (h : Rests s loop) (hown : Own printMes report e)
    (hstep : LogLoop.Step loop e loop')
    : ∃ s', Goes logger logger printMes report s s' ∧ Rests s' loop' := by
  rcases h.loop with rfl
  rcases enters_or_runs logger hown hstep with ⟨henters, hmine⟩ | hruns
  . rcases passes logger printMes report (h.phase logger) h.owner henters hmine hstep with
      ⟨s', hgoes, hleft⟩
    exact ⟨s', hgoes, hleft.rests logger fun u _ => h.phase u⟩
  . have hnext : s.loop.step e = some (.ok loop') := hstep
    have hrun : Step logger s (logger, .run e) { s with loop := loop' } := by
      simp [Step, step, h.phase logger, hruns, hnext]
    exact ⟨_, goes_step _ _ hrun trivial hown, rfl, h.owner, h.phase⟩

theorem Rests.goes_run {es : List (LogLoop.Event α)} (h : Rests s loop)
    (hrun : Alone printMes report loop es loop')
    : ∃ s', Goes logger logger printMes report s s' ∧ Rests s' loop' := by
  induction hrun with
  | nil => exact ⟨s, ⟨[], .nil⟩, h⟩
  | snoc _ hown hstep ih =>
    rcases ih with ⟨s₁, hgoes₁, h₁⟩
    rcases h₁.goes logger hown hstep with ⟨s₂, hgoes₂, h₂⟩
    exact ⟨s₂, hgoes₁.trans hgoes₂, h₂⟩

-- the section that the log thread is about to go through: it waits with nothing left to write, or
-- goes on and loses nothing
omit [DecidableEq T] in
theorem section_spec (h : loop.Conserved) (henters : Enters loop logger logger e)
    : unwritten loop.log = [] ∨
      ∃ loop', LogLoop.Step loop e loop' ∧ loop'.log.file = loop.log.file ∧
        (unwritten loop.log).Sublist (unwritten loop'.log) := by
  cases e with
  | append buf => exact absurd rfl henters.1
  | swap =>
    by_cases hready : loop.log.readyBuf = []
    . left
      rw [LogWaiter.unwritten_waiting h henters.2]
      rw [hready]
      rfl
    . right
      exact ⟨_, LogWaiter.swaps h henters.2 hready, rfl, LogWaiter.unwritten_swap h henters.2⟩
  | report buf =>
    rcases LogWaiter.reports h henters.2.1 henters.2.2 with ⟨loop', hstep, _, hfile, _, hsub⟩
    exact Or.inr ⟨loop', hstep, hfile, hsub⟩
  | _ => exact absurd henters id

-- by its own steps the log thread gets out of its guard and loses nothing
def Escapes (logger : T) (printMes : Bool) (report : List α) (s : LogSignal T α) : Prop :=
  ∃ s' loop, Goes logger logger printMes report s s' ∧ Rests s' loop ∧ loop.Conserved ∧
    loop.log.file = s.loop.log.file ∧ (unwritten s.loop.log).Sublist (unwritten loop.log)

theorem escapes_of_left {flag : Bool} (h : Guarded logger s)
    (hquiet : ∀ t, t ≠ logger → s.phase t = .outside)
    (hleft : ∃ s', Goes logger logger printMes report s s' ∧ Left logger logger s s' s.loop flag)
    : Escapes logger printMes report s := by
  rcases hleft with ⟨s', hgoes, hleft⟩
  exact ⟨s', s.loop, hgoes, hleft.rests logger hquiet, h.conserved, rfl, List.Sublist.refl _⟩

theorem escapes_of_section (h : Guarded logger s)
    (hquiet : ∀ t, t ≠ logger → s.phase t = .outside) (henters : Enters s.loop logger logger e)
    (hpasses : ∀ loop, LogLoop.Step s.loop e loop →
      ∃ s', Goes logger logger printMes report s s' ∧ Left logger logger s s' loop (s.changes e))
    : unwritten s.loop.log = [] ∨ Escapes logger printMes report s := by
  rcases section_spec logger h.conserved henters with hempty | ⟨loop, hstep, hfile, hsub⟩
  . exact Or.inl hempty
  . rcases hpasses loop hstep with ⟨s', hgoes, hleft⟩
    exact Or.inr ⟨s', loop, hgoes, hleft.rests logger hquiet, h.conserved.conserved_step hstep,
      hfile, hsub⟩

omit [LogChar α] in
theorem Guarded.free_of_quiet (h : Guarded logger s)
    (hquiet : ∀ t, t ≠ logger → s.phase t = .outside) (hout : (s.phase logger).guarded = false)
    : s.owner = none := by
  cases howner : s.owner with
  | none => rfl
  | some t =>
    have hinside : (s.phase t).guarded = true := (h.held t).mp howner
    by_cases ht : t = logger
    . rw [ht, hout] at hinside
      cases hinside
    . rw [hquiet t ht] at hinside
      cases hinside

omit [LogChar α] in
-- with nobody to notify it the log thread sleeps only while no buffer is ready
theorem readyBuf_of_asleep (hwoken : (s.waiter logger).Woken)
    (hquiet : ∀ t, t ≠ logger → s.phase t = .outside) (h : s.phase logger = .asleep)
    : s.loop.log.readyBuf = [] := by
  have hsleeping : (s.waiter logger).sleeping = true := by
    simp [waiter, h, SignalPhase.sleeps]
  by_contra hne
  rcases hwoken.owed hsleeping hne with ⟨t, ht⟩
  by_cases hlogger : t = logger
  . simp [waiter, hlogger] at ht
  . simp [waiter, hquiet t hlogger, SignalPhase.owes] at ht

variable (printMes report)

theorem written_or_escapes (h : Guarded logger s) (hwoken : (s.waiter logger).Woken)
    (hquiet : ∀ t, t ≠ logger → s.phase t = .outside)
    : unwritten s.loop.log = [] ∨ Escapes logger printMes report s := by
  have hadmits := h.admits logger
  have hfree := h.free_of_quiet logger hquiet
  cases hphase : s.phase logger with
  | outside =>
    refine Or.inr ⟨s, s.loop, ⟨[], .nil⟩, ⟨rfl, hfree (by rw [hphase]; rfl), ?_⟩, h.conserved, rfl,
      List.Sublist.refl _⟩
    intro t
    by_cases ht : t = logger
    . rw [ht]
      exact hphase
    . exact hquiet t ht
  | entering e =>
    rw [hphase] at hadmits
    apply escapes_of_section logger h hquiet hadmits
    intro loop hstep
    exact locks logger printMes report hphase (hfree (by rw [hphase]; rfl)) hstep
  | inside e =>
    rw [hphase] at hadmits
    apply escapes_of_section logger h hquiet hadmits
    intro loop hstep
    exact works logger printMes report hphase hstep
  | tested =>
    rw [hphase] at hadmits
    left
    rw [LogWaiter.unwritten_waiting h.conserved hadmits.2.1]
    rw [hadmits.2.2]
    rfl
  | asleep =>
    rw [hphase] at hadmits
    left
    rw [LogWaiter.unwritten_waiting h.conserved hadmits.2]
    rw [readyBuf_of_asleep logger hwoken hquiet hphase]
    rfl
  | woken =>
    rw [hphase] at hadmits
    have howner := hfree (by rw [hphase]; rfl)
    have hlock : Step logger s (logger, .lock)
        ({ s with owner := some logger }.move logger (.inside .swap)) := by
      simp [Step, step, hphase, howner]
    have hinside : ({ s with owner := some logger }.move logger (.inside .swap)).phase logger
        = .inside .swap := by
      simp [move]
    have henters : Enters s.loop logger logger .swap := hadmits
    apply escapes_of_section logger h hquiet henters
    intro loop hstep
    refine Left.cons hlock trivial trivial ?_ (works logger printMes report hinside hstep)
    intro t ht
    simp [move, ht]
  | leaving flag => exact Or.inr (escapes_of_left logger h hquiet (leaves logger _ _ hphase))
  | unlocked =>
    have howner := hfree (by rw [hphase]; rfl)
    exact Or.inr (escapes_of_left logger h hquiet (leaves_unlocked logger _ _ hphase howner))
  | notified =>
    have howner := hfree (by rw [hphase]; rfl)
    exact Or.inr (escapes_of_left logger h hquiet (leaves_notified logger _ _ hphase howner))

/-! ### Runs -/

variable {logger}

/--
While the log thread sleeps with a buffer ready, another thread is about to notify it; and where no
other thread is in `apendMessage`, the log thread writes every block that has been handed over by its
own steps.
-/
theorem drained_of_run {es : List (T × Action α)} (h : Run (Step logger) Free init es s)
    : (s.phase logger = .asleep → s.loop.log.readyBuf ≠ [] →
        ∃ t, t ≠ logger ∧ (s.phase t).owes = true) ∧
      ∀ printMes (report : List α), report.length ≤ LogLoop.maxReport →
        (∀ t, t ≠ logger → s.phase t = .outside) →
        ∃ es' s' parts, Run (Step logger) (By logger printMes report) s es' s' ∧
          s'.loop.log.file = s.loop.log.file ++ (contents parts).flatten ∧
            (unwritten s.loop.log).Sublist parts := by
  rcases waiter_of_run h with ⟨hguarded, es', hrun⟩
  have hwoken := LogWaiter.woken_of_run hrun
  constructor
  . intro hasleep hne
    have hsleeping : (s.waiter logger).sleeping = true := by
      simp [waiter, hasleep, SignalPhase.sleeps]
    rcases hwoken.owed hsleeping hne with ⟨t, ht⟩
    refine ⟨t, ?_⟩
    simpa [waiter] using ht
  . intro printMes report hreport hquiet
    rcases written_or_escapes logger printMes report hguarded hwoken hquiet with
      hempty | ⟨s₁, loop, ⟨es₁, hrun₁⟩, hrests, hconserved, hfile, hsub⟩
    . exact ⟨[], s, [], .nil, by simp [contents], by simp [hempty]⟩
    . rcases LogWaiter.drained_of_conserved printMes hreport hconserved with
        ⟨es₂, loop₂, parts, halone, hfile₂, hsub₂⟩
      rcases hrests.goes_run logger halone with ⟨s₂, ⟨es₃, hrun₃⟩, hrests₂⟩
      refine ⟨_, s₂, parts, hrun₁.append hrun₃, ?_, hsub.trans hsub₂⟩
      rw [hrests₂.loop]
      rw [hfile₂]
      rw [hfile]

/-! ### A full buffer -/

-- the log thread sleeps, and thread 1 has appended `n` messages of the largest size
structure Filling (s : LogSignal Nat Byte) (n : Nat) : Prop where
  reached : ∃ es, Run (Step 0) Free init es s
  conserved : s.loop.Conserved
  index : s.loop.log.currentBufIndex = n * maxMessage
  spare : s.loop.log.preBuf ≠ []
  owner : s.owner = none
  asleep : s.phase 0 = .asleep
  quiet : ∀ t, t ≠ 0 → s.phase t = .outside

theorem filling_zero : ∃ s, Filling s 0 := by
  let entered := (init : LogSignal Nat Byte).move 0 (.entering .swap)
  let locked := { entered with owner := some 0 }.move 0 (.inside .swap)
  let tested := locked.move 0 .tested
  let asleep := { tested with owner := none }.move 0 .asleep
  have henter : Step 0 init (0, .enter .swap) entered := by
    simp [Step, step, init, Enters, LogLoop.init, entered]
  have hlock : Step 0 entered (0, .lock) locked := by
    simp [Step, step, entered, locked, move, init]
  have htest : Step 0 locked (0, .test) tested := by
    simp [Step, step, tested, locked, entered, move, init, LogLoop.init, LogThread.init]
  have hwait : Step 0 tested (0, .wait) asleep := by
    simp [Step, step, asleep, tested, move]
  have hlocked : Run (Step 0) Free init _ locked :=
    .snoc (.snoc .nil (by trivial) henter) (by trivial) hlock
  have hrun : Run (Step 0) Free init _ asleep :=
    .snoc (.snoc hlocked (by trivial) htest) (by trivial) hwait
  refine ⟨asleep, ⟨_, hrun⟩, LogLoop.conserved_init, ?_, ?_, rfl, rfl, ?_⟩
  . exact (Nat.zero_mul maxMessage).symm
  . exact List.cons_ne_nil _ _
  . intro t ht
    simp [asleep, tested, locked, entered, move, init, ht]

theorem Filling.appends {s : LogSignal Nat Byte} {n : Nat} (h : Filling s n)
    : ∃ es s', Run (Step 0) Free init es s' ∧
        Left 0 1 s s' s'.loop (decide (10 ≤ n)) ∧ s'.loop.Conserved ∧
        s'.loop.log = s.loop.log.apendMessage LogLoop.message := by
  have hlen : LogLoop.message.length ≤ maxMessage := Nat.le_of_eq LogLoop.length_message
  have hstep := LogLoop.step_append h.conserved.fitted hlen
  have henters : Enters s.loop 0 1 (.append LogLoop.message) := ⟨by decide, hlen⟩
  rcases h.reached with ⟨es, hrun⟩
  rcases passes 0 false [] (h.quiet 1 (by decide)) h.owner henters trivial hstep with
    ⟨s', ⟨es', hrun'⟩, hleft⟩
  have hchanges : s.changes (.append LogLoop.message) = decide (10 ≤ n) := by
    apply decide_eq_decide.mpr
    rw [LogThread.freeSize_lt_iff]
    rw [LogThread.fits_iff_lt h.index LogLoop.length_message]
    exact Nat.not_lt
  rw [hchanges] at hleft
  have hloop := hleft.loop
  rw [← hloop] at hleft
  refine ⟨_, s', hrun.append (hrun'.mono fun _ _ hby => hby.1), hleft, ?_, ?_⟩
  . rw [hloop]
    exact h.conserved.conserved_step hstep
  . rw [hloop]

theorem filling_of_le {n : Nat} (hn : n ≤ 10) : ∃ s, Filling s n := by
  induction n with
  | zero => exact filling_zero
  | succ n ih =>
    rcases ih (by omega) with ⟨s, h⟩
    rcases h.appends with ⟨es, s', hrun, hleft, hconserved, hlog⟩
    rw [decide_eq_false (by omega)] at hleft
    have hsame (t : Nat) (ht : t ≠ 1) : s'.phase t = s.phase t := by
      simpa using hleft.others t ht
    refine ⟨s', ⟨es, hrun⟩, hconserved, ?_, ?_, hleft.owner, ?_, ?_⟩
    . rw [hlog]
      exact LogThread.index_apendMessage h.index LogLoop.length_message (by omega)
    . rw [hlog]
      rw [LogThread.apendMessage_of_fits
        ((LogThread.fits_iff_lt h.index LogLoop.length_message).mpr (by omega))]
      exact h.spare
    . rw [hsame 0 (by decide)]
      exact h.asleep
    . intro t ht
      by_cases hone : t = 1
      . rw [hone]
        exact hleft.self
      . rw [hsame t hone]
        exact h.quiet t ht

theorem drained_of_run_full
    : ∃ (es : List (Nat × Action Byte)) (s : LogSignal Nat Byte),
        Run (Step 0) Free init es s ∧ s.phase 0 = .woken ∧ s.loop.log.readyBuf ≠ [] ∧
          ∃ es' s' parts, Run (Step 0) (By 0 false []) s es' s' ∧
            s'.loop.log.file = s.loop.log.file ++ (contents parts).flatten ∧
              (unwritten s.loop.log).Sublist parts := by
  rcases filling_of_le (Nat.le_refl 10) with ⟨s, h⟩
  rcases h.appends with ⟨es, s', hrun, hleft, _, hlog⟩
  have hfits : ¬s.loop.log.Fits LogLoop.message := by
    rw [LogThread.fits_iff_lt h.index LogLoop.length_message]
    exact Nat.lt_irrefl 10
  have hready := LogLoop.readyBuf_of_spare hfits h.spare
  rw [← hlog] at hready
  have hwoken : s'.phase 0 = .woken := by
    have hother := hleft.others 0 (by decide)
    rw [h.asleep] at hother
    exact hother
  refine ⟨es, s', hrun, hwoken, by simp [hready], (drained_of_run hrun).2 false [] (Nat.zero_le _) ?_⟩
  intro t ht
  by_cases hone : t = 1
  . rw [hone]
    exact hleft.self
  . rw [hleft.others t hone]
    rw [if_neg fun hboth => ht hboth.2]
    exact h.quiet t ht

end LogSignal
end Fish
