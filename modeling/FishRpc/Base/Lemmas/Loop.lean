import FishRpc.Base.Impl.Loop
import FishRpc.Lib.Ownership
import FishRpc.Lib.Run

/-!
This module contains the order of the temporary tasks: those that have been executed, those that the
loop thread has taken and those that wait in `tempTasks_` are the tasks that have been added, in that
order. The tasks of a batch add to `tempTasks_` and never to the batch. What gets lost is what is
pushed while `reserve` in front of the loop moves the elements.
-/

namespace Fish

-- the tasks of the batch that have not been called
def LoopPhase.remaining {α : Type} : LoopPhase α → List α
  | leaving temp => temp
  | batch temp next => temp.drop next
  | running temp next => temp.drop (next + 1)
  | stopped | reserving | moving _ | naming | flagging | starting | checking | working | entering
  | inside => []

-- in the section that the guard protects
def LoopPhase.guarded {α : Type} : LoopPhase α → Bool
  | inside | leaving _ => true
  | stopped | reserving | moving _ | naming | flagging | starting | checking | working | entering
  | batch _ _ | running _ _ => false

-- `reserve` has moved the elements and not yet set the vector to their new place
def LoopPhase.moves {α : Type} : LoopPhase α → Bool
  | moving _ => true
  | _ => false

-- in front of the loop, where `thread_loop_id` has not been set
def LoopPhase.unnamed {α : Type} : LoopPhase α → Bool
  | stopped | reserving | moving _ | naming => true
  | flagging | starting | checking | working | entering | inside | leaving _ | batch _ _
  | running _ _ => false

def AddPhase.guarded {α : Type} : AddPhase α → Bool
  | inside _ | leaving => true
  | outside | entering _ => false

namespace Loop

variable {T α : Type} {looper t : T} {s s' : Loop T α}

def Guarded (looper : T) (s : Loop T α) (t : T) : Prop :=
  (s.call t).guarded = true ∨ (t = looper ∧ s.phase.guarded = true)

def tasks (s : Loop T α) : List α := s.executed ++ s.phase.remaining ++ s.tempTasks

-- the tasks that are left when `reserve` is through
def kept (s : Loop T α) : List α :=
  match s.phase with
  | .moving moved => s.executed ++ moved
  | _ => s.tasks

theorem kept_eq_tasks (h : s.phase.moves = false) : s.kept = s.tasks := by
  unfold kept
  split
  . rename_i hphase
    rw [hphase] at h
    cases h
  . rfl

def Event.isPush : Event T α → Bool
  | .pushBack _ => true
  | _ => false

-- nothing is pushed while `reserve` moves the elements
def Apart (s : Loop T α) (e : Event T α) : Prop := e.isPush = true → s.phase.moves = false

/-! ### The sections of `tempTaskMut_` -/

structure Inv (looper : T) (s : Loop T α) : Prop where
  owner : ∀ t, Guarded looper s t ↔ s.owner = some t
  calling : s.phase.user = false → s.call looper = .outside
  fresh : s.looped = false → s.phase.unnamed = true

theorem inv_init (looper : T) : Inv looper (init : Loop T α) where
  owner t := by simp [Guarded, init, AddPhase.guarded, LoopPhase.guarded]
  calling := nofun
  fresh _ := rfl

theorem user_of_guarded {phase : LoopPhase α} (h : phase.guarded = true) : phase.user = false := by
  cases phase <;> first | rfl | cases h

theorem Inv.held (hs : Inv looper s) : Ownership.Held s.owner (Guarded looper s) :=
  fun t => (hs.owner t).symm

theorem Inv.ne_looper (hs : Inv looper s) (hcall : s.call t ≠ .outside)
    (huser : s.phase.user = false) : t ≠ looper := by
  rintro rfl
  exact hcall (hs.calling huser)

theorem Inv.looped (hs : Inv looper s) (hphase : s.phase.unnamed = false) : s.looped ≠ false := by
  intro hlooped
  rw [hs.fresh hlooped] at hphase
  cases hphase

-- the loop thread moves on without the guard
theorem Inv.pass {old phase : LoopPhase α} {flag looped : Bool} {capacity : Nat}
    {tempTasks executed : List α} (hs : Inv looper s) (hcall : s.call looper = .outside)
    (hold : s.phase = old) (hguarded : old.guarded = false) (hfree : phase.guarded = false)
    (hfresh : looped = false → phase.unnamed = true)
    : Inv looper { s with flag, tempTasks, capacity, phase, looped, executed } where
  owner u := by
    refine Iff.trans ?_ (hs.owner u)
    unfold Guarded
    simp [hold, hguarded, hfree]
  calling _ := hcall
  fresh := hfresh

theorem Inv.enter (hs : Inv looper s) (hcall : s.call looper = .outside)
    (hphase : s.phase = .entering) (hfree : s.owner = none)
    : Inv looper { s with owner := some looper, phase := .inside } where
  owner u := by
    have hheld := hs.held
    rw [hfree] at hheld
    refine (hheld.lock (Or.inr ⟨rfl, rfl⟩) ?_ u).symm
    intro u hu
    simp [Guarded, hu]
  calling _ := hcall
  fresh h := absurd h (hs.looped (by simp [hphase, LoopPhase.unnamed]))

theorem Inv.swap (hs : Inv looper s) (hcall : s.call looper = .outside)
    (hphase : s.phase = .inside)
    : Inv looper { s with phase := .leaving s.tempTasks, tempTasks := [], capacity := 8 } where
  owner u := by
    refine Iff.trans ?_ (hs.owner u)
    unfold Guarded
    simp [hphase, LoopPhase.guarded]
  calling _ := hcall
  fresh h := absurd h (hs.looped (by simp [hphase, LoopPhase.unnamed]))

theorem Inv.leave {temp : List α} (hs : Inv looper s) (hcall : s.call looper = .outside)
    (hphase : s.phase = .leaving temp)
    : Inv looper { s with owner := none, phase := .batch temp 0 } where
  owner u := by
    have hlooper : Guarded looper s looper := Or.inr ⟨rfl, by simp [hphase, LoopPhase.guarded]⟩
    refine (hs.held.unlock hlooper ?_ ?_ u).symm
    . simp [Guarded, hcall, AddPhase.guarded, LoopPhase.guarded]
    . intro u hu
      simp [Guarded, hu]
  calling _ := hcall
  fresh h := absurd h (hs.looped (by simp [hphase, LoopPhase.unnamed]))

theorem Inv.advance (hs : Inv looper s) (hcall : s.call looper = .outside)
    (h : s.advance looper = some s') : Inv looper s' := by
  unfold Loop.advance at h
  split at h
  . cases h
  . rename_i hphase
    cases h
    apply hs.pass hcall hphase rfl
    . split <;> rfl
    . intro _
      split <;> rfl
  . rename_i moved hphase
    cases h
    exact hs.pass hcall hphase rfl rfl fun _ => rfl
  . rename_i hphase
    cases h
    exact hs.pass hcall hphase rfl rfl nofun
  . rename_i hphase
    cases h
    have hlooped := hs.looped (by simp [hphase, LoopPhase.unnamed])
    exact hs.pass hcall hphase rfl rfl fun hfresh => absurd hfresh hlooped
  . rename_i hphase
    cases h
    have hlooped := hs.looped (by simp [hphase, LoopPhase.unnamed])
    exact hs.pass hcall hphase rfl rfl fun hfresh => absurd hfresh hlooped
  . rename_i hphase
    cases h
    have hlooped := hs.looped (by simp [hphase, LoopPhase.unnamed])
    apply hs.pass hcall hphase rfl
    . split <;> rfl
    . exact fun hfresh => absurd hfresh hlooped
  . rename_i hphase
    cases h
    have hlooped := hs.looped (by simp [hphase, LoopPhase.unnamed])
    exact hs.pass hcall hphase rfl rfl fun hfresh => absurd hfresh hlooped
  . rename_i hphase
    split at h
    . rename_i hfree
      cases h
      exact hs.enter hcall hphase hfree
    . cases h
  . rename_i hphase
    cases h
    exact hs.swap hcall hphase
  . rename_i temp hphase
    cases h
    exact hs.leave hcall hphase
  . rename_i temp next hphase
    have hlooped := hs.looped (by simp [hphase, LoopPhase.unnamed])
    split at h
    . cases h
      exact hs.pass hcall hphase rfl rfl fun hfresh => absurd hfresh hlooped
    . cases h
      exact hs.pass hcall hphase rfl rfl fun hfresh => absurd hfresh hlooped
  . rename_i temp next hphase
    cases h
    have hlooped := hs.looped (by simp [hphase, LoopPhase.unnamed])
    exact hs.pass hcall hphase rfl rfl fun hfresh => absurd hfresh hlooped

/-! ### The tasks -/

-- what one step does to the lists of tasks
inductive Lists (s s' : Loop T α) : Event T α → Prop where
  | same (e : Event T α) (hpush : e.isPush = false) (added : s'.added = s.added)
    (kept : s'.kept = s.kept) (tasks : s'.tasks = s.tasks ∨ s'.tasks = s'.kept) : Lists s s' e
  | push (t : T) (task : α) (added : s'.added = s.added ++ [task])
    (kept : s'.kept = if s.phase.moves then s.kept else s.kept ++ [task])
    (tasks : s'.tasks = s.tasks ++ [task]) : Lists s s' (.pushBack t)

-- the loop thread moves on outside `reserve`
theorem Lists.pass {old phase : LoopPhase α} {flag looped : Bool} {capacity : Nat}
    {tempTasks executed : List α} {owner : Option T} (hold : s.phase = old)
    (hs : old.moves = false) (hs' : phase.moves = false)
    (htasks : executed ++ phase.remaining ++ tempTasks = s.executed ++ old.remaining ++ s.tempTasks)
    : Lists s { s with flag, tempTasks, capacity, owner, phase, looped, executed } .advance := by
  subst hold
  have heq : tasks { s with flag, tempTasks, capacity, owner, phase, looped, executed } = s.tasks :=
    htasks
  refine .same _ rfl rfl ?_ (Or.inl heq)
  rw [kept_eq_tasks hs, ← heq]
  exact kept_eq_tasks hs'

theorem Lists.of_advance (h : s.advance looper = some s') : Lists s s' .advance := by
  unfold Loop.advance at h
  split at h
  . cases h
  . rename_i hphase
    cases h
    refine .same _ rfl rfl ?_ (Or.inl ?_)
    . unfold kept tasks
      simp only [hphase]
      split
      . rename_i moved hmoving
        split at hmoving
        . cases hmoving
          simp [LoopPhase.remaining]
        . cases hmoving
      . split <;> rfl
    . unfold tasks
      simp only [hphase]
      split <;> rfl
  . rename_i moved hphase
    cases h
    refine .same _ rfl rfl ?_ (Or.inr rfl)
    unfold kept tasks
    simp [hphase, LoopPhase.remaining]
  . rename_i hphase
    cases h
    exact .pass hphase rfl rfl rfl
  . rename_i hphase
    cases h
    exact .pass hphase rfl rfl rfl
  . rename_i hphase
    cases h
    exact .pass hphase rfl rfl rfl
  . rename_i hphase
    cases h
    apply Lists.pass hphase rfl
    . split <;> rfl
    . split <;> rfl
  . rename_i hphase
    cases h
    exact .pass hphase rfl rfl rfl
  . rename_i hphase
    split at h
    . cases h
      exact .pass hphase rfl rfl rfl
    . cases h
  . rename_i hphase
    cases h
    apply Lists.pass hphase rfl rfl
    simp [LoopPhase.remaining]
  . rename_i temp hphase
    cases h
    exact .pass hphase rfl rfl rfl
  . rename_i temp next hphase
    split at h
    . rename_i task htask
      cases h
      rcases List.getElem?_eq_some_iff.mp htask with ⟨hlt, rfl⟩
      apply Lists.pass hphase rfl rfl
      simp only [LoopPhase.remaining]
      rw [List.drop_eq_getElem_cons hlt]
      simp
    . rename_i htask
      cases h
      apply Lists.pass hphase rfl rfl
      simp only [LoopPhase.remaining]
      rw [List.drop_eq_nil_of_le (List.getElem?_eq_none_iff.mp htask)]
  . rename_i temp next hphase
    cases h
    exact .pass hphase rfl rfl rfl

-- whatever is lost, nothing is repeated or moved
structure Ordered (s : Loop T α) : Prop where
  kept : s.kept.Sublist s.tasks
  tasks : s.tasks.Sublist s.added

theorem Lists.ordered {e : Event T α} (hs : Ordered s) (h : Lists s s' e) : Ordered s' := by
  cases h with
  | same _ hpush hadded hkept htasks =>
    rcases htasks with htasks | htasks
    . constructor
      . rw [hkept, htasks]
        exact hs.kept
      . rw [hadded, htasks]
        exact hs.tasks
    . constructor
      . simp only [htasks, List.Sublist.refl]
      . rw [hadded, htasks, hkept]
        exact hs.kept.trans hs.tasks
  | push t task hadded hkept htasks =>
    constructor
    . rw [hkept, htasks]
      split
      . exact hs.kept.trans (List.sublist_append_left ..)
      . exact hs.kept.append_right _
    . rw [hadded, htasks]
      exact hs.tasks.append_right _

variable [DecidableEq T]

theorem call_move (s : Loop T α) (t u : T) (phase : AddPhase α)
    : (s.move t phase).call u = if u = t then phase else s.call u :=
  Function.update_apply ..

-- a thread moves on in `addTempTask` without the guard
theorem Inv.move {phase : AddPhase α} (hs : Inv looper s)
    (hguarded : phase.guarded = (s.call t).guarded)
    (hcalling : t = looper → s.phase.user = false → phase = .outside)
    : Inv looper (s.move t phase) where
  owner u := by
    refine Iff.trans ?_ (hs.owner u)
    unfold Guarded
    rw [call_move]
    by_cases hu : u = t
    . subst hu
      rw [if_pos rfl, hguarded]
      exact Iff.rfl
    . rw [if_neg hu]
      exact Iff.rfl
  calling huser := by
    rw [call_move]
    split
    . rename_i heq
      exact hcalling heq.symm huser
    . exact hs.calling huser
  fresh := hs.fresh

theorem Inv.addTempTask {task : α} (hs : Inv looper s)
    (h : Step looper s (.addTempTask t task) s') : Inv looper s' := by
  simp only [Step, step] at h
  split at h
  . rename_i hcall
    split at h
    . cases h
    . rename_i hfree
      cases h
      apply hs.move
      . rw [hcall]
        rfl
      . intro heq huser
        exact absurd ⟨heq, huser⟩ hfree
  . cases h

theorem Inv.lock (hs : Inv looper s) (h : Step looper s (.lock t) s') : Inv looper s' := by
  simp only [Step, step] at h
  split at h
  . rename_i task hcall hfree
    cases h
    refine ⟨?_, ?_, hs.fresh⟩
    . intro u
      have hheld := hs.held
      rw [hfree] at hheld
      refine (hheld.lock (Or.inl ?_) ?_ u).symm
      . rw [call_move, if_pos rfl]
        rfl
      . intro u hu
        unfold Guarded
        rw [call_move, if_neg hu]
        exact Iff.rfl
    . intro huser
      rw [call_move]
      split
      . rename_i heq
        exact absurd heq.symm (hs.ne_looper (by simp [hcall]) huser)
      . exact hs.calling huser
  . cases h

theorem Inv.pushBack (hs : Inv looper s) (h : Step looper s (.pushBack t) s')
    : Inv looper s' := by
  simp only [Step, step] at h
  split at h
  . rename_i task hcall
    cases h
    have hpushed : Inv looper { s.push task with added := s.added ++ [task] } :=
      ⟨hs.owner, hs.calling, hs.fresh⟩
    apply hpushed.move
    . show AddPhase.guarded .leaving = (s.call t).guarded
      rw [hcall]
      rfl
    . intro heq huser
      exact absurd heq (hs.ne_looper (by simp [hcall]) huser)
  . cases h

theorem Inv.unlock (hs : Inv looper s) (h : Step looper s (.unlock t) s') : Inv looper s' := by
  simp only [Step, step] at h
  split at h
  . rename_i hcall
    cases h
    have hguarded : Guarded looper s t := by
      unfold Guarded
      rw [hcall]
      exact Or.inl rfl
    have hphase : ¬s.phase.guarded = true := by
      intro hphase
      have hlooper : Guarded looper s looper := Or.inr ⟨rfl, hphase⟩
      have huser := user_of_guarded hphase
      exact hs.ne_looper (by simp [hcall]) huser (hs.held.unique hguarded hlooper)
    refine ⟨?_, ?_, hs.fresh⟩
    . intro u
      refine (hs.held.unlock hguarded ?_ ?_ u).symm
      . unfold Guarded
        rw [call_move, if_pos rfl]
        rintro (hu | ⟨_, hu⟩)
        . cases hu
        . exact hphase hu
      . intro u hu
        unfold Guarded
        rw [call_move, if_neg hu]
        exact Iff.rfl
    . intro huser
      rw [call_move]
      split
      . rfl
      . exact hs.calling huser
  . cases h

theorem phase_of_unnamed {phase : LoopPhase α} (huser : phase.user = true)
    (hunnamed : phase.unnamed = true) : phase = .stopped := by
  cases phase with
  | stopped => rfl
  | starting | working | running => cases hunnamed
  | _ => cases huser

-- what `begin` does if it does not throw
theorem Inv.begins (hs : Inv looper s) (h : Step looper s .begin s')
    : s' = s ∨ s.phase = .stopped ∧ s.looped = false ∧ s.flag = false ∧
        s.call looper = .outside ∧ s' = { s with phase := .reserving } := by
  simp only [Step, step] at h
  split at h
  . rename_i hcall
    split at h
    . cases h
    . rename_i huser
      split at h
      . cases h
        exact Or.inl rfl
      . rename_i hfree
        cases h
        rw [not_or, Bool.not_eq_true, Bool.not_eq_true] at hfree
        rw [Bool.not_eq_false] at huser
        exact Or.inr ⟨phase_of_unnamed huser (hs.fresh hfree.1), hfree.1, hfree.2, hcall, rfl⟩
  . cases h

theorem Inv.begin (hs : Inv looper s) (h : Step looper s .begin s') : Inv looper s' := by
  rcases hs.begins h with rfl | ⟨hphase, hlooped, hflag, hcall, rfl⟩
  . exact hs
  . exact hs.pass hcall hphase rfl rfl fun _ => rfl

theorem Inv.step {e : Event T α} (hs : Inv looper s) (h : Step looper s e s') : Inv looper s' := by
  cases e with
  | addTempTask t task => exact hs.addTempTask h
  | lock t => exact hs.lock h
  | pushBack t => exact hs.pushBack h
  | unlock t => exact hs.unlock h
  | closeLoop =>
    cases h
    exact ⟨hs.owner, hs.calling, hs.fresh⟩
  | begin => exact hs.begin h
  | advance =>
    simp only [Step, Loop.step] at h
    split at h
    . rename_i hcall
      exact hs.advance hcall h
    . cases h

theorem Inv.of_run {es : List (Event T α)} (h : Run (Step looper) Run.Always init es s)
    : Inv looper s := by
  apply h.invariant (inv_init looper)
  exact fun s e s' hs _ hstep => hs.step hstep

theorem Inv.lists {e : Event T α} (hs : Inv looper s) (h : Step looper s e s') : Lists s s' e := by
  cases e with
  | addTempTask t task =>
    simp only [Step, Loop.step] at h
    split at h
    . split at h
      . cases h
      . cases h
        exact .same _ rfl rfl rfl (Or.inl rfl)
    . cases h
  | lock t =>
    simp only [Step, Loop.step] at h
    split at h
    . cases h
      exact .same _ rfl rfl rfl (Or.inl rfl)
    . cases h
  | pushBack t =>
    simp only [Step, Loop.step] at h
    split at h
    . rename_i task hcall
      cases h
      have htasks : ∀ executed remaining tempTasks : List α,
          executed ++ remaining ++ (tempTasks ++ [task]) =
            executed ++ remaining ++ tempTasks ++ [task] :=
        fun _ _ _ => (List.append_assoc ..).symm
      refine .push t task rfl ?_ (htasks ..)
      unfold kept
      cases hphase : s.phase with
      | moving moved => simp [Loop.move, push, hphase, LoopPhase.moves]
      | _ => simp [Loop.move, push, tasks, hphase, LoopPhase.moves]
    . cases h
  | unlock t =>
    simp only [Step, Loop.step] at h
    split at h
    . cases h
      exact .same _ rfl rfl rfl (Or.inl rfl)
    . cases h
  | closeLoop =>
    cases h
    exact .same _ rfl rfl rfl (Or.inl rfl)
  | begin =>
    rcases hs.begins h with rfl | ⟨hphase, _, _, _, rfl⟩
    . exact .same _ rfl rfl rfl (Or.inl rfl)
    . have hkept : kept { s with phase := .reserving } = s.kept := by
        unfold kept tasks
        rw [hphase]
        rfl
      have htasks : tasks { s with phase := .reserving } = s.tasks := by
        unfold tasks
        rw [hphase]
        rfl
      exact .same _ rfl rfl hkept (Or.inl htasks)
  | advance =>
    simp only [Step, Loop.step] at h
    split at h
    . exact .of_advance h
    . cases h

theorem Ordered.of_run {es : List (Event T α)} (h : Run (Step looper) Run.Always init es s)
    : Ordered s := by
  have hboth : Inv looper s ∧ Ordered s := by
    apply h.invariant ⟨inv_init looper, List.Sublist.refl _, List.Sublist.refl _⟩
    rintro s e s' ⟨hs, hordered⟩ _ hstep
    exact ⟨hs.step hstep, (hs.lists hstep).ordered hordered⟩
  exact hboth.2

instance (s : Loop T α) (e : Event T α) : Decidable (Apart s e) :=
  inferInstanceAs (Decidable (e.isPush = true → s.phase.moves = false))

end Loop
end Fish
