import FishRpc.Base.Impl.Mutex
import FishRpc.Lib.Ownership
import FishRpc.Lib.Run

/-!
This module contains what the flag of a `LockGuard` says about the mutex. `lock` unlocks the mutex of a
guard that does not hold it, so the flags are right as long as no such call gets that far. Guards that
are only constructed and destroyed, as everywhere in the sources, never do that.
-/

namespace Fish

namespace LockGuard

-- what the guard itself has done to the mutex
def holding (guard : LockGuard) : Bool :=
  match guard.phase with
  | .constructed | .unlocking .unlock | .unlocking .destroy => true
  | .idle => guard.isLocked
  | .unborn | .constructing | .unlocking .lock | .unlocked _ | .destroyed => false

theorem holding_of_idle {guard : LockGuard} (h : guard.phase = .idle)
    : guard.holding = guard.isLocked := by
  unfold holding
  rw [h]

theorem holding_enter {guard : LockGuard} (h : guard.phase = .idle) (call : Call)
    : (guard.enter call).holding = guard.holding := by
  rw [holding_of_idle h]
  rcases guard with ⟨phase, isLocked⟩
  cases call <;> cases isLocked <;> rfl

theorem phase_enter {guard : LockGuard} {call : Call} (h : call = .lock → guard.isLocked = true)
    : (guard.enter call).phase ≠ .unlocking .lock := by
  unfold enter
  cases call with
  | lock =>
    simp only [h rfl, if_true]
    nofun
  | unlock =>
    simp only
    split <;> nofun
  | destroy =>
    simp only
    split <;> nofun

theorem returned_ne (call : Call) : returned call ≠ .unlocking .lock := by
  cases call <;> nofun

theorem holding_returned (call : Call)
    : holding { phase := returned call, isLocked := false } = false := by
  cases call <;> rfl

end LockGuard

namespace Mutex

open LockGuard (Call)

variable {G : Type} [DecidableEq G] {s s' : Mutex G} {g u : G} {a : Action} {guard : LockGuard}
  {es : List (G × Action)}

theorem guard_move (s : Mutex G) (g u : G) (guard : LockGuard)
    : (s.move g guard).guard u = if u = g then guard else s.guard u :=
  Function.update_apply ..

-- `lock` of a guard that is not locked unlocks the mutex
def Relocks (s : Mutex G) : G × Action → Prop
  | (g, .unlockMutex) => (s.guard g).phase = .unlocking .lock
  | _ => False

def NoRelock (s : Mutex G) (e : G × Action) : Prop := ¬s.Relocks e

-- `lock` is called only if the guard is locked
def LocksNothing (s : Mutex G) : G × Action → Prop
  | (g, .call .lock) => (s.guard g).isLocked = true
  | _ => True

/--
Everything that a step can do to the mutex.
-/
inductive Moved (s : Mutex G) (g : G) (a : Action) (s' : Mutex G) : Prop where
  | stays (guard : LockGuard) (action : a ≠ .unlockMutex)
    (same : guard.holding = (s.guard g).holding)
    (phase : s.LocksNothing (g, a) → guard.phase ≠ .unlocking .lock) (eq : s' = s.move g guard)
  | locks (guard : LockGuard) (action : a ≠ .unlockMutex) (free : s.owner = none)
    (after : guard.holding = true) (eq : s' = { s with owner := some g }.move g guard)
  | unlocks (guard : LockGuard) (action : a = .unlockMutex)
    (before : (s.guard g).holding = true ↔ s.NoRelock (g, a)) (after : guard.holding = false)
    (phase : guard.phase ≠ .unlocking .lock) (eq : s' = { s with owner := none }.move g guard)

theorem moved_construct (h : Step s (g, .construct) s') : Moved s g .construct s' := by
  simp only [Step, step] at h
  split at h
  . rename_i hphase
    cases h
    refine .stays _ nofun ?_ ?_ rfl
    . simp [LockGuard.holding, hphase]
    . exact fun _ => nofun
  . cases h

theorem moved_lockMutex (h : Step s (g, .lockMutex) s') : Moved s g .lockMutex s' := by
  simp only [Step, step] at h
  split at h
  . rename_i hphase hfree
    cases h
    exact .locks _ nofun hfree rfl rfl
  . cases h

theorem moved_setLocked (h : Step s (g, .setLocked) s') : Moved s g .setLocked s' := by
  simp only [Step, step] at h
  split at h
  . rename_i hphase
    cases h
    refine .stays _ nofun ?_ ?_ rfl
    . simp [LockGuard.holding, hphase]
    . exact fun _ => nofun
  . cases h

theorem moved_call {call : Call} (h : Step s (g, .call call) s') : Moved s g (.call call) s' := by
  simp only [Step, step] at h
  split at h
  . rename_i hphase
    cases h
    refine .stays _ nofun (LockGuard.holding_enter hphase call) ?_ rfl
    intro hlocks
    apply LockGuard.phase_enter
    rintro rfl
    exact hlocks
  . cases h

theorem moved_unlockMutex (h : Step s (g, .unlockMutex) s') : Moved s g .unlockMutex s' := by
  simp only [Step, step] at h
  split at h
  . rename_i call hphase
    cases h
    refine .unlocks _ rfl ?_ rfl ?_ rfl
    . unfold NoRelock Relocks LockGuard.holding
      simp only [hphase]
      cases call <;> simp
    . exact nofun
  . cases h

theorem moved_clearLocked (h : Step s (g, .clearLocked) s') : Moved s g .clearLocked s' := by
  simp only [Step, step] at h
  split at h
  . rename_i call hphase
    cases h
    refine .stays _ nofun ?_ (fun _ => LockGuard.returned_ne call) rfl
    rw [LockGuard.holding_returned]
    simp [LockGuard.holding, hphase]
  . cases h

theorem moved_of_step (h : Step s (g, a) s') : Moved s g a s' := by
  cases a with
  | construct => apply moved_construct h
  | lockMutex => apply moved_lockMutex h
  | setLocked => apply moved_setLocked h
  | call call => apply moved_call h
  | unlockMutex => apply moved_unlockMutex h
  | clearLocked => apply moved_clearLocked h

/-! ### The flags -/

structure Sound (s : Mutex G) : Prop where
  mirrors : ∀ g, (s.guard g).phase = .idle → ((s.guard g).isLocked = true ↔ s.owner = some g)
  released : ∀ g, (s.guard g).phase = .destroyed → s.owner ≠ some g

def ByHolder (s : Mutex G) (e : G × Action) : Prop := e.2 = .unlockMutex → s.owner = some e.1

def Proper (s : Mutex G) (e : G × Action) : Prop := s.Sound ∧ s.ByHolder e

def Inside (s : Mutex G) (g : G) : Prop := (s.guard g).holding = true

def Held (s : Mutex G) : Prop := Ownership.Held s.owner s.Inside

omit [DecidableEq G] in
theorem held_init : (init : Mutex G).Held :=
  Ownership.held_none nofun

omit [DecidableEq G] in
theorem Held.sound (h : s.Held) : s.Sound where
  mirrors g hidle := by
    rw [h g]
    unfold Inside
    rw [LockGuard.holding_of_idle hidle]
  released g hdestroyed := by
    rw [Ne, h g]
    simp [Inside, LockGuard.holding, hdestroyed]

theorem inside_move_of_ne (hu : u ≠ g) : (s.move g guard).Inside u ↔ s.Inside u := by
  unfold Inside
  rw [guard_move, if_neg hu]

theorem inside_move_self : (s.move g guard).Inside g ↔ guard.holding = true := by
  unfold Inside
  rw [guard_move, if_pos rfl]

theorem Held.step {e : G × Action} (h : s.Held) (hmeets : s.NoRelock e) (hstep : Step s e s')
    : s'.Held := by
  rcases e with ⟨g, a⟩
  cases moved_of_step hstep with
  | stays guard action same _ eq =>
    subst eq
    apply Ownership.Held.congr h
    intro u
    by_cases hu : u = g
    . rw [hu, inside_move_self, same]
      rfl
    . apply inside_move_of_ne hu
  | locks guard action free after eq =>
    subst eq
    unfold Held at h
    rw [free] at h
    apply Ownership.Held.lock h
    . exact inside_move_self.mpr after
    . exact fun u hu => inside_move_of_ne hu
  | unlocks guard action before after _ eq =>
    subst eq
    apply Ownership.Held.unlock h (before.mpr hmeets)
    . rw [inside_move_self, after]
      exact Bool.false_ne_true
    . exact fun u hu => inside_move_of_ne hu

theorem Held.proper_iff {e : G × Action} (h : s.Held) (hstep : Step s e s')
    : s.Proper e ↔ s.NoRelock e := by
  rcases e with ⟨g, a⟩
  have hproper : s.Proper (g, a) ↔ s.ByHolder (g, a) := and_iff_right h.sound
  have hkeeps (hne : a ≠ .unlockMutex) : s.ByHolder (g, a) ↔ s.NoRelock (g, a) := by
    apply iff_of_true
    . exact fun heq => absurd heq hne
    . cases a with
      | unlockMutex => exact absurd rfl hne
      | _ => exact not_false
  rw [hproper]
  cases moved_of_step hstep with
  | stays guard action => exact hkeeps action
  | locks guard action => exact hkeeps action
  | unlocks guard action before =>
    rw [← before]
    exact (forall_prop_of_true action).trans (h g)

/--
The flag of each guard is right between its calls, the mutex is unlocked by its holder only and a
destroyed guard holds nothing, in exactly the runs in which no `lock` unlocks the mutex.
-/
theorem mirrors_iff (es : List (G × Action)) (s : Mutex G)
    : Run Step Proper init es s ∧ s.Sound ↔ Run Step NoRelock init es s := by
  have hcongr : Run Step Proper init es s ↔ Run Step NoRelock init es s := by
    apply Run.meets_congr held_init
    . exact fun s e s' hs hmeets hstep => hs.step hmeets hstep
    . exact fun s e s' hs hstep => hs.proper_iff hstep
  rw [hcongr]
  apply and_iff_left_of_imp
  intro hrun
  have hheld : s.Held := hrun.invariant held_init fun s e s' hs hmeets hstep => hs.step hmeets hstep
  apply hheld.sound

-- the first guard has unlocked, the second one has locked, and the first one calls `lock`
def relock : List (Nat × Action) :=
  [(1, .construct), (1, .lockMutex), (1, .setLocked), (1, .call .unlock), (1, .unlockMutex),
    (1, .clearLocked), (2, .construct), (2, .lockMutex), (2, .setLocked), (1, .call .lock),
    (1, .unlockMutex)]

/--
The mutex that the second guard has locked is free.
-/
theorem not_mirrors_relock
    : ¬∀ es (s : Mutex Nat),
        Run Step Run.Always init es s → Run Step Proper init es s ∧ s.Sound := by
  intro hall
  have hsecond : (Run.execute step Run.Always init relock).map
      (fun s => (s.guard 2, s.owner)) = some ({ phase := .idle, isLocked := true }, none) := by
    decide
  rcases Option.map_eq_some_iff.mp hsecond with ⟨s, hs, heq⟩
  rw [Prod.mk.injEq] at heq
  have hrun : Run Step Run.Always init relock s := Run.of_execute (fun _ _ _ hstep => hstep) hs
  have hmirrors := (hall relock s hrun).2.mirrors 2
  rw [heq.1, heq.2] at hmirrors
  cases (hmirrors rfl).mp rfl

/-! ### Guards that only lock if they are locked -/

def NoneRelocking (s : Mutex G) : Prop := ∀ g, (s.guard g).phase ≠ .unlocking .lock

theorem NoneRelocking.move (h : s.NoneRelocking) (hguard : guard.phase ≠ .unlocking .lock)
    : (s.move g guard).NoneRelocking := by
  intro u
  rw [guard_move]
  split
  . exact hguard
  . exact h u

theorem NoneRelocking.step {e : G × Action} (h : s.NoneRelocking) (hmeets : s.LocksNothing e)
    (hstep : Step s e s') : s'.NoneRelocking := by
  rcases e with ⟨g, a⟩
  cases moved_of_step hstep with
  | stays guard action same phase eq =>
    subst eq
    apply h.move (phase hmeets)
  | locks guard action free after eq =>
    subst eq
    apply NoneRelocking.move h
    intro hphase
    simp [LockGuard.holding, hphase] at after
  | unlocks guard action before after phase eq =>
    subst eq
    apply NoneRelocking.move h phase

omit [DecidableEq G] in
theorem NoneRelocking.noRelock (h : s.NoneRelocking) (e : G × Action) : s.NoRelock e := by
  intro hrelocks
  unfold Relocks at hrelocks
  split at hrelocks
  . exact h _ hrelocks
  . exact hrelocks

/--
Guards whose `lock` is called only if they are locked, or never, as everywhere in the sources.
-/
theorem proper_of_locksNothing (h : Run Step LocksNothing init es s)
    : Run Step Proper init es s ∧ s.Sound := by
  have hboth : Run Step Proper init es s ∧ s.Held ∧ s.NoneRelocking := by
    induction h with
    | nil => exact ⟨.nil, held_init, nofun⟩
    | snoc _ hmeets hstep ih =>
      rcases ih with ⟨hrun, hheld, hnone⟩
      have hproper := (hheld.proper_iff hstep).mpr (hnone.noRelock _)
      have hheld' := hheld.step (hnone.noRelock _) hstep
      exact ⟨.snoc hrun hproper hstep, hheld', hnone.step hmeets hstep⟩
  exact ⟨hboth.1, hboth.2.1.sound⟩

end Mutex
end Fish
