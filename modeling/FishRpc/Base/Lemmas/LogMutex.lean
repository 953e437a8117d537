import FishRpc.Base.Impl.LogMutex
import FishRpc.Base.Lemmas.LogOverflow
import FishRpc.Lib.Ownership

/-!
This module contains the mutual exclusion of the sections that `mut_` guards. It holds as long as no
thread reaches the destructor of its guard behind an unlock by hand, since that destructor unlocks
what another thread may have locked.
-/

namespace Fish

-- in a section that the guard protects
def GuardPhase.guarded {α : Type} : GuardPhase α → Bool
  | inside _ | leaving _ => true
  | outside | entering _ | waiting | unlocked => false

namespace LogMutex

variable {T α : Type} [DecidableEq T] [LogChar α] {logger t : T} {s s' : LogMutex T α}
  {a : Action α}

def Action.releases : Action α → Bool
  | wait | unlock | destroy => true
  | enter _ | lock | wake | work | run _ => false

-- the destructor unlocks although the thread has already unlocked
def Surplus (s : LogMutex T α) : T × Action α → Prop
  | (t, .destroy) => s.phase t = .unlocked
  | _ => False

/--
Everything that a step can do to the mutex.
-/
inductive Moved (s : LogMutex T α) (t : T) (a : Action α) (s' : LogMutex T α) : Prop where
  | stays (phase : GuardPhase α) (action : a.releases = false)
    (guarded : phase.guarded = (s.phase t).guarded) (owner : s'.owner = s.owner)
    (moved : s'.phase = Function.update s.phase t phase)
    (acquired : s'.acquired = s.acquired) (released : s'.released = s.released)
  | locks (event : LogLoop.Event α) (action : a.releases = false)
    (before : (s.phase t).guarded = false) (free : s.owner = none)
    (eq : s' = (s.lock t).move t (.inside event))
  | unlocks (phase : GuardPhase α) (action : a.releases = true) (after : phase.guarded = false)
    (before : (s.phase t).guarded = true ↔ ¬s.Surplus (t, a))
    (eq : s' = (s.unlock t).move t phase)

theorem moved_enter {e : LogLoop.Event α} (h : Step logger s (t, .enter e) s')
    : Moved s t (.enter e) s' := by
  simp only [Step, step] at h
  split at h
  . rename_i hphase
    split at h
    . cases h
      exact .stays (.entering e) rfl (by rw [hphase]; rfl) rfl rfl rfl rfl
    . cases h
  . cases h

theorem moved_work (h : Step logger s (t, .work) s') : Moved s t .work s' := by
  simp only [Step, step] at h
  split at h
  . rename_i e hphase
    split at h
    . cases h
      exact .stays (.leaving (s.changes e)) rfl (by rw [hphase]; rfl) rfl rfl rfl rfl
    . cases h
  . cases h

theorem moved_run {e : LogLoop.Event α} (h : Step logger s (t, .run e) s')
    : Moved s t (.run e) s' := by
  simp only [Step, step] at h
  split at h
  . split at h
    . split at h
      . cases h
        exact .stays (s.phase t) rfl rfl rfl (Function.update_eq_self t s.phase).symm rfl rfl
      . cases h
    . cases h
  . cases h

theorem moved_lock (h : Step logger s (t, .lock) s') : Moved s t .lock s' := by
  simp only [Step, step] at h
  split at h
  . rename_i e hphase hfree
    cases h
    exact .locks e rfl (by rw [hphase]; rfl) hfree rfl
  . cases h

theorem moved_wake (h : Step logger s (t, .wake) s') : Moved s t .wake s' := by
  simp only [Step, step] at h
  split at h
  . rename_i hphase hfree
    cases h
    exact .locks .swap rfl (by rw [hphase]; rfl) hfree rfl
  . cases h

theorem moved_wait (h : Step logger s (t, .wait) s') : Moved s t .wait s' := by
  simp only [Step, step] at h
  split at h
  . rename_i hphase
    split at h
    . cases h
      exact .unlocks .waiting rfl rfl (iff_of_true (by rw [hphase]; rfl) not_false) rfl
    . cases h
  . cases h

theorem moved_unlock (h : Step logger s (t, .unlock) s') : Moved s t .unlock s' := by
  simp only [Step, step] at h
  split at h
  . rename_i hphase
    cases h
    exact .unlocks .unlocked rfl rfl (iff_of_true (by rw [hphase]; rfl) not_false) rfl
  . cases h

theorem moved_destroy (h : Step logger s (t, .destroy) s') : Moved s t .destroy s' := by
  simp only [Step, step] at h
  split at h
  . rename_i hphase
    cases h
    refine .unlocks .outside rfl rfl (iff_of_true ?_ ?_) rfl
    . rw [hphase]
      rfl
    . simp [Surplus, hphase]
  . rename_i hphase
    cases h
    refine .unlocks .outside rfl rfl (iff_of_false ?_ ?_) rfl
    . simp [GuardPhase.guarded, hphase]
    . simp [Surplus, hphase]
  . cases h

theorem moved_of_step (h : Step logger s (t, a) s') : Moved s t a s' := by
  cases a with
  | enter e => apply moved_enter h
  | lock => apply moved_lock h
  | wait => apply moved_wait h
  | wake => apply moved_wake h
  | work => apply moved_work h
  | unlock => apply moved_unlock h
  | destroy => apply moved_destroy h
  | run e => apply moved_run h

/-! ### Mutual exclusion -/

def Inside (s : LogMutex T α) (t : T) : Prop := (s.phase t).guarded = true

structure Safe (s : LogMutex T α) : Prop where
  exclusive : ∀ t t', s.Inside t → s.Inside t' → t = t'
  released : ∀ t, s.acquired t = s.released t + (s.phase t).guarded.toNat

def ByHolder (s : LogMutex T α) (e : T × Action α) : Prop :=
  e.2.releases = true → s.owner = some e.1

def Proper (s : LogMutex T α) (e : T × Action α) : Prop := s.Safe ∧ s.ByHolder e

def NoSurplus (s : LogMutex T α) (e : T × Action α) : Prop := ¬s.Surplus e

structure Held (s : LogMutex T α) : Prop where
  owner : ∀ t, s.owner = some t ↔ s.Inside t
  released : ∀ t, s.acquired t = s.released t + (s.phase t).guarded.toNat

omit [DecidableEq T] in
theorem held_init : (init : LogMutex T α).Held := by
  constructor
  . intro t
    apply iff_of_false
    . rintro ⟨⟩
    . rintro ⟨⟩
  . intro t
    rfl

omit [DecidableEq T] [LogChar α] in
theorem Held.safe (h : s.Held) : s.Safe := by
  exact ⟨fun t t' ht ht' => Ownership.Held.unique h.owner ht ht', h.released⟩

theorem Held.step {e : T × Action α} (h : s.Held) (hmeets : s.NoSurplus e)
    (hstep : Step logger s e s') : s'.Held := by
  rcases e with ⟨t, a⟩
  cases moved_of_step hstep with
  | stays phase action guarded owner moved acquired released =>
    have hguarded : ∀ t', (s'.phase t').guarded = (s.phase t').guarded := by
      intro t'
      rw [moved, Function.update_apply]
      split
      . rename_i heq
        rw [heq, guarded]
      . rfl
    constructor
    . intro t'
      rw [owner, h.owner t']
      unfold Inside
      rw [hguarded]
    . intro t'
      rw [acquired, released, hguarded]
      apply h.released
  | locks event action before free eq =>
    subst eq
    constructor
    . have hheld : Ownership.Held s.owner s.Inside := h.owner
      rw [free] at hheld
      apply hheld.lock
      . simp [Inside, move, GuardPhase.guarded]
      . intro t' hne
        simp [Inside, move, lock, hne]
    . intro t'
      have hcount := h.released t'
      simp only [move, lock, Function.update_apply]
      split
      . rename_i heq
        rw [heq, before] at hcount
        rw [heq, hcount]
        rfl
      . apply hcount
  | unlocks phase action after before eq =>
    subst eq
    have hinside : (s.phase t).guarded = true := before.mpr hmeets
    constructor
    . apply Ownership.Held.unlock h.owner hinside
      . simp [Inside, move, after]
      . intro t' hne
        simp [Inside, move, unlock, hne]
    . intro t'
      have hcount := h.released t'
      simp only [move, unlock, Function.update_apply]
      split
      . rename_i heq
        rw [heq, hinside] at hcount
        rw [after, heq, hcount]
        rfl
      . apply hcount

-- an action that unlocks nothing
omit [DecidableEq T] [LogChar α] in
theorem byHolder_of_keeps (h : a.releases = false)
    : s.ByHolder (t, a) ↔ s.NoSurplus (t, a) := by
  apply iff_of_true
  . intro hreleases
    rw [h] at hreleases
    cases hreleases
  . intro hsurplus
    cases a with
    | destroy => cases h
    | _ => exact hsurplus

theorem Held.proper_iff {e : T × Action α} (h : s.Held) (hstep : Step logger s e s')
    : s.Proper e ↔ s.NoSurplus e := by
  rcases e with ⟨t, a⟩
  have hsafe : s.Proper (t, a) ↔ s.ByHolder (t, a) := and_iff_right h.safe
  rw [hsafe]
  cases moved_of_step hstep with
  | stays phase action => apply byHolder_of_keeps action
  | locks event action => apply byHolder_of_keeps action
  | unlocks phase action _ before =>
    unfold NoSurplus
    rw [← before]
    apply Iff.trans (forall_prop_of_true action)
    apply h.owner

/--
The mutex is unlocked only by its holder, once for each acquisition, and no two threads are in its
sections, in exactly the runs without a surplus unlock.
-/
theorem exclusive_iff (logger : T) (es : List (T × Action α)) (s : LogMutex T α)
    : Run (Step logger) Proper init es s ∧ s.Safe
        ↔
      Run (Step logger) NoSurplus init es s := by
  have hcongr : Run (Step logger) Proper init es s ↔ Run (Step logger) NoSurplus init es s := by
    apply Run.meets_congr held_init
    . intro s e s' hs hmeets hstep
      apply hs.step hmeets hstep
    . intro s e s' hs hstep
      apply hs.proper_iff hstep
  rw [hcongr]
  apply and_iff_left_of_imp
  intro hrun
  have hheld : s.Held := hrun.invariant held_init fun s e s' hs hmeets hstep => hs.step hmeets hstep
  apply hheld.safe

/-! ### Two threads in a section -/

open LogThread (Fitted maxMessage)
open LogLoop (message length_message)

theorem enters (h : s.phase t = .outside) (hfree : s.owner = none) {e : LogLoop.Event α}
    (he : s.Enters logger t e)
    : ∃ es s',
        Run (Step logger) Run.Always s es s' ∧ s'.loop = s.loop ∧ s'.owner = some t ∧
        s'.phase = Function.update s.phase t (.inside e) := by
  have hentered : Step logger s (t, .enter e) (s.move t (.entering e)) := by
    simp [Step, step, h, he]
  have hlocked : Step logger (s.move t (.entering e)) (t, .lock)
      (((s.move t (.entering e)).lock t).move t (.inside e)) := by
    simp [Step, step, move, hfree]
  refine ⟨_, _, .snoc (.single hentered) trivial hlocked, rfl, rfl, ?_⟩
  simp [move, lock]

theorem step_work {e : LogLoop.Event α} {loop : LogLoop α} (h : s.phase t = .inside e)
    (hstep : LogLoop.Step s.loop e loop)
    : Step logger s (t, .work) ({ s with loop }.move t (.leaving (s.changes e))) := by
  unfold LogLoop.Step at hstep
  simp [Step, step, h, hstep]

variable {r r' : LogMutex Nat Byte}

-- no thread is in `apendMessage` and there are `n` messages in the current buffer
structure Idle (r : LogMutex Nat Byte) (n : Nat) : Prop where
  phase : r.phase = fun _ => .outside
  owner : r.owner = none
  fitted : Fitted r.loop.log
  index : r.loop.log.currentBufIndex = n * maxMessage

theorem Idle.changes {n : Nat} (h : Idle r n)
    : r.changes (.append message) = decide (10 ≤ n) := by
  apply decide_eq_decide.mpr
  rw [LogThread.freeSize_lt_iff]
  rw [LogThread.fits_iff_lt h.index length_message]
  exact Nat.not_lt

-- the first thread appends a message and is in front of the end of `apendMessage`
theorem Idle.works {n : Nat} (h : Idle r n)
    : ∃ es r',
        Run (Step 0) Run.Always r es r' ∧ r'.owner = some 1 ∧
        r'.phase = Function.update (fun _ => .outside) 1 (.leaving (decide (10 ≤ n))) ∧
        r'.loop.log = r.loop.log.apendMessage message := by
  have hlen : message.length ≤ maxMessage := Nat.le_of_eq length_message
  have hphase : r.phase 1 = .outside := by rw [h.phase]
  have henters : r.Enters 0 1 (.append message) := ⟨by decide, hlen⟩
  rcases enters hphase h.owner henters with ⟨es, r₁, hrun, hloop, howner, hphase₁⟩
  rw [h.phase] at hphase₁
  have hchanges : r₁.changes (.append message) = decide (10 ≤ n) := by
    rw [← h.changes]
    unfold LogMutex.changes
    rw [hloop]
  have hinside : r₁.phase 1 = .inside (.append message) := by simp [hphase₁]
  have hstep := LogLoop.step_append h.fitted hlen
  rw [← hloop] at hstep
  refine ⟨_, _, .snoc hrun trivial (step_work hinside hstep), howner, ?_, ?_⟩
  . simp [move, hphase₁, hchanges]
  . simp [move, hloop]

theorem Idle.append {n : Nat} (h : Idle r n) (hn : n < 10)
    : ∃ es r', Run (Step 0) Run.Always r es r' ∧ Idle r' (n + 1) := by
  have hlen : message.length ≤ maxMessage := Nat.le_of_eq length_message
  rcases h.works with ⟨es, r₁, hrun, howner, hphase, hlog⟩
  rw [decide_eq_false (by omega)] at hphase
  have hdestroyed : Step 0 r₁ (1, .destroy) ((r₁.unlock 1).move 1 .outside) := by
    simp [Step, step, hphase]
  refine ⟨_, _, .snoc hrun trivial hdestroyed, ?_, rfl, ?_, ?_⟩
  . simp only [move, unlock, hphase, Function.update_idem]
    apply Function.update_eq_self
  . simp only [move, unlock, hlog]
    apply (h.fitted.append hlen).1
  . simp only [move, unlock, hlog]
    exact LogThread.index_apendMessage h.index length_message hn

theorem idle_of_le {n : Nat} (hn : n ≤ 10)
    : ∃ es r, Run (Step 0) Run.Always init es r ∧ Idle r n := by
  induction n with
  | zero => exact ⟨[], init, .nil, rfl, rfl, LogThread.fitted_init, rfl⟩
  | succ n ih =>
    rcases ih (by omega) with ⟨es, r, hrun, hidle⟩
    rcases hidle.append (by omega) with ⟨es', r', hrun', hidle'⟩
    exact ⟨_, r', hrun.append hrun', hidle'⟩

-- the destructor of the first thread unlocks for the second one, so that the third one can lock
theorem two_inside
    : ∃ es, ∃ r : LogMutex Nat Byte,
        Run (Step 0) Run.Always init es r ∧ r.Inside 2 ∧ r.Inside 3 := by
  have hlen : message.length ≤ maxMessage := Nat.le_of_eq length_message
  rcases idle_of_le (Nat.le_refl 10) with ⟨es, r, hrun, hidle⟩
  rcases hidle.works with ⟨es₁, r₁, hrun₁, _, hphase₁, _⟩
  rw [decide_eq_true (Nat.le_refl 10)] at hphase₁
  have hunlocked : Step 0 r₁ (1, .unlock) ((r₁.unlock 1).move 1 .unlocked) := by
    simp [Step, step, hphase₁]
  have henters : ((r₁.unlock 1).move 1 .unlocked).Enters 0 2 (.append message) := ⟨by decide, hlen⟩
  have hout : ((r₁.unlock 1).move 1 .unlocked).phase 2 = .outside := by
    simp [move, unlock, hphase₁]
  rcases enters hout rfl henters with ⟨es₂, r₂, hrun₂, _, _, hphase₂⟩
  have hdestroyed : Step 0 r₂ (1, .destroy) ((r₂.unlock 1).move 1 .outside) := by
    simp [Step, step, hphase₂, move]
  have henters' : ((r₂.unlock 1).move 1 .outside).Enters 0 3 (.append message) := ⟨by decide, hlen⟩
  have hout' : ((r₂.unlock 1).move 1 .outside).phase 3 = .outside := by
    simp [move, unlock, hphase₂, hphase₁]
  rcases enters hout' rfl henters' with ⟨es₃, r₃, hrun₃, _, _, hphase₃⟩
  refine ⟨_, r₃, ((hrun.append (.snoc hrun₁ trivial hunlocked)).append
    (.snoc hrun₂ trivial hdestroyed)).append hrun₃, ?_, ?_⟩
  . simp [Inside, hphase₃, hphase₂, move, unlock, GuardPhase.guarded]
  . simp [Inside, hphase₃, GuardPhase.guarded]

theorem not_exclusive
    : ¬∀ es (r : LogMutex Nat Byte),
        Run (Step 0) Run.Always init es r → Run (Step 0) Proper init es r ∧ r.Safe := by
  intro hall
  rcases two_inside with ⟨es, r, hrun, htwo, hthree⟩
  have heq := (hall es r hrun).2.exclusive 2 3 htwo hthree
  cases heq

end LogMutex
end Fish
