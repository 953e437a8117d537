import FishRpc.Base.Lemmas.Loop

/-!
This module contains what `closeLoop` does. Until `beginInCurrentThread` has set `flag_` it is lost.
Afterwards it is final: `task_` is not called again, the thread takes at most the batch that it is
about to take, and it comes to its end whatever other threads add.
-/

namespace Fish

-- a closed loop takes no further batch from here
def LoopPhase.past {α : Type} : LoopPhase α → Bool
  | stopped | starting | checking | leaving _ | batch _ _ | running _ _ => true
  | reserving | moving _ | naming | flagging | working | entering | inside => false

-- in `beginInCurrentThread`, in front of the line that sets `flag_`
def LoopPhase.early {α : Type} : LoopPhase α → Bool
  | reserving | moving _ | naming | flagging => true
  | stopped | starting | checking | working | entering | inside | leaving _ | batch _ _
  | running _ _ => false

namespace Loop

variable {T α : Type} {looper : T} {s s' : Loop T α}

-- `beginInCurrentThread` has set `flag_`
def Begun (s : Loop T α) : Prop := s.looped = true ∧ s.phase.early = false

instance (s : Loop T α) : Decidable s.Begun :=
  inferInstanceAs (Decidable (s.looped = true ∧ s.phase.early = false))

structure Closed (s : Loop T α) : Prop where
  begun : s.Begun
  flag : s.flag = false

-- the steps of the loop thread until it stops, if nothing is added
def stepsLeft (s : Loop T α) : Nat :=
  match s.phase with
  | .stopped | .reserving | .moving _ | .naming | .flagging => 0
  | .checking => 1
  | .starting => 2
  | .batch temp next => 2 * (temp.length - next) + 2
  | .running temp next => 2 * (temp.length - (next + 1)) + 3
  | .leaving temp => 2 * temp.length + 3
  | .inside => 2 * s.tempTasks.length + 4
  | .entering => 2 * s.tempTasks.length + 5
  | .working => 2 * s.tempTasks.length + 6

-- what one step of the loop thread does when the loop is closed
structure Advanced (s s' : Loop T α) : Prop where
  closed : s'.Closed
  calls : s'.phase ≠ .working
  batches : s.phase.past = true → s'.phase.past = true ∧
    s'.executed ++ s'.phase.remaining = s.executed ++ s.phase.remaining
  steps : s'.stepsLeft < s.stepsLeft

theorem Closed.advance (hs : s.Closed) (h : s.advance looper = some s') : Advanced s s' := by
  have hflag := hs.flag
  unfold Loop.advance at h
  have hearly := hs.begun.2
  split at h
  . cases h
  . rename_i hphase
    rw [hphase] at hearly
    cases hearly
  . rename_i moved hphase
    rw [hphase] at hearly
    cases hearly
  . rename_i hphase
    rw [hphase] at hearly
    cases hearly
  . rename_i hphase
    rw [hphase] at hearly
    cases hearly
  . rename_i hphase
    cases h
    refine ⟨⟨⟨hs.begun.1, rfl⟩, hs.flag⟩, by simp, ?_, ?_⟩
    . simp [hphase, LoopPhase.past, LoopPhase.remaining]
    . simp [stepsLeft, hphase]
  . rename_i hphase
    cases h
    refine ⟨⟨⟨hs.begun.1, by simp [hflag, LoopPhase.early]⟩, hs.flag⟩, ?_, ?_, ?_⟩
    . simp [hflag]
    . simp [hflag, hphase, LoopPhase.past, LoopPhase.remaining]
    . simp [stepsLeft, hflag, hphase]
  . rename_i hphase
    cases h
    refine ⟨⟨⟨hs.begun.1, rfl⟩, hs.flag⟩, by simp, ?_, ?_⟩
    . simp [hphase, LoopPhase.past]
    . simp [stepsLeft, hphase]
  . rename_i hphase
    split at h
    . cases h
      refine ⟨⟨⟨hs.begun.1, rfl⟩, hs.flag⟩, by simp, ?_, ?_⟩
      . simp [hphase, LoopPhase.past]
      . simp [stepsLeft, hphase]
    . cases h
  . rename_i hphase
    cases h
    refine ⟨⟨⟨hs.begun.1, rfl⟩, hs.flag⟩, by simp, ?_, ?_⟩
    . simp [hphase, LoopPhase.past]
    . simp [stepsLeft, hphase]
  . rename_i temp hphase
    cases h
    refine ⟨⟨⟨hs.begun.1, rfl⟩, hs.flag⟩, by simp, ?_, ?_⟩
    . simp [hphase, LoopPhase.past, LoopPhase.remaining]
    . simp [stepsLeft, hphase]
  . rename_i temp next hphase
    split at h
    . rename_i task htask
      cases h
      rcases List.getElem?_eq_some_iff.mp htask with ⟨hlt, rfl⟩
      refine ⟨⟨⟨hs.begun.1, rfl⟩, hs.flag⟩, by simp, ?_, ?_⟩
      . intro _
        refine ⟨rfl, ?_⟩
        simp only [hphase, LoopPhase.remaining]
        rw [List.drop_eq_getElem_cons hlt, List.append_assoc]
        rfl
      . simp only [stepsLeft, hphase]
        omega
    . rename_i htask
      cases h
      refine ⟨⟨⟨hs.begun.1, rfl⟩, hs.flag⟩, by simp, ?_, ?_⟩
      . intro _
        refine ⟨rfl, ?_⟩
        simp only [hphase, LoopPhase.remaining]
        rw [List.drop_eq_nil_of_le (List.getElem?_eq_none_iff.mp htask)]
      . simp only [stepsLeft, hphase]
        omega
  . rename_i temp next hphase
    cases h
    refine ⟨⟨⟨hs.begun.1, rfl⟩, hs.flag⟩, by simp, ?_, ?_⟩
    . simp [hphase, LoopPhase.past, LoopPhase.remaining]
    . simp [stepsLeft, hphase]

-- the other threads and the code of the user do not move the loop thread
structure Untouched (s : Loop T α) (e : Event T α) (s' : Loop T α) : Prop where
  looped : s'.looped = s.looped
  flag : s'.flag = true → s.flag = true
  phase : s'.phase = s.phase
  executed : s'.executed = s.executed
  tempTasks : s'.tempTasks.length = s.tempTasks.length + e.isPush.toNat

variable {e : Event T α} {es es' : List (Event T α)}

theorem Untouched.closed (h : Untouched s e s') (hs : s.Closed) : s'.Closed where
  begun := by
    unfold Begun
    rw [h.looped, h.phase]
    exact hs.begun
  flag := by
    cases hflag : s'.flag with
    | false => rfl
    | true =>
      have hopen := h.flag hflag
      rw [hs.flag] at hopen
      cases hopen

-- `flag_` is set behind `thread_loop_id` and in front of the loop
structure FlagSet (s : Loop T α) : Prop where
  begun : s.flag = true → s.Begun
  named : s.phase = .flagging → s.looped = true

-- a step that leaves `flag_` and `thread_loop_id` alone
theorem FlagSet.keep {phase : LoopPhase α} {tempTasks executed : List α} {capacity : Nat}
    {owner : Option T} (hs : s.FlagSet)
    (hearly : s.phase.early = false → phase.early = false) (hnamed : phase ≠ .flagging)
    : FlagSet { s with tempTasks, capacity, owner, phase, executed } where
  begun hflag := ⟨(hs.begun hflag).1, hearly (hs.begun hflag).2⟩
  named hphase := absurd hphase hnamed

theorem FlagSet.advance (hs : s.FlagSet) (h : s.advance looper = some s') : s'.FlagSet := by
  unfold Loop.advance at h
  split at h
  . cases h
  . rename_i hphase
    cases h
    apply hs.keep
    . simp [hphase, LoopPhase.early]
    . split <;> simp
  . rename_i moved hphase
    cases h
    apply hs.keep <;> simp [hphase, LoopPhase.early]
  . rename_i hphase
    cases h
    have hearly : s.flag ≠ true := fun hflag => by
      have hbegun := (hs.begun hflag).2
      rw [hphase] at hbegun
      cases hbegun
    exact ⟨fun hflag => absurd hflag hearly, fun _ => rfl⟩
  . rename_i hphase
    cases h
    exact ⟨fun _ => ⟨hs.named hphase, rfl⟩, nofun⟩
  . rename_i hphase
    cases h
    apply hs.keep <;> simp [LoopPhase.early]
  . rename_i hphase
    cases h
    apply hs.keep
    . intro _
      split <;> rfl
    . split <;> simp
  . rename_i hphase
    cases h
    apply hs.keep <;> simp [LoopPhase.early]
  . rename_i hphase
    split at h
    . cases h
      apply hs.keep <;> simp [LoopPhase.early]
    . cases h
  . rename_i hphase
    cases h
    apply hs.keep <;> simp [LoopPhase.early]
  . rename_i temp hphase
    cases h
    apply hs.keep <;> simp [LoopPhase.early]
  . rename_i temp next hphase
    split at h
    . cases h
      apply hs.keep <;> simp [LoopPhase.early]
    . cases h
      apply hs.keep <;> simp [LoopPhase.early]
  . rename_i temp next hphase
    cases h
    apply hs.keep <;> simp [LoopPhase.early]

variable [DecidableEq T]

theorem FlagSet.step (hs : s.FlagSet) (h : Step looper s e s') : s'.FlagSet := by
  cases e with
  | addTempTask t task =>
    simp only [Step, Loop.step] at h
    split at h
    . split at h
      . cases h
      . cases h
        exact ⟨hs.begun, hs.named⟩
    . cases h
  | lock t =>
    simp only [Step, Loop.step] at h
    split at h
    . cases h
      exact ⟨hs.begun, hs.named⟩
    . cases h
  | pushBack t =>
    simp only [Step, Loop.step] at h
    split at h
    . cases h
      exact ⟨hs.begun, hs.named⟩
    . cases h
  | unlock t =>
    simp only [Step, Loop.step] at h
    split at h
    . cases h
      exact ⟨hs.begun, hs.named⟩
    . cases h
  | closeLoop =>
    cases h
    exact ⟨by simp, hs.named⟩
  | begin =>
    simp only [Step, Loop.step] at h
    split at h
    . split at h
      . cases h
      . split at h
        . cases h
          exact hs
        . rename_i hfree
          cases h
          rw [not_or] at hfree
          exact ⟨fun hflag => absurd hflag hfree.2, by simp⟩
    . cases h
  | advance =>
    simp only [Step, Loop.step] at h
    split at h
    . exact hs.advance h
    . cases h

theorem FlagSet.of_run (h : Run (Step looper) Run.Always init es s) : s.FlagSet := by
  apply h.invariant ⟨nofun, nofun⟩
  exact fun s e s' hs _ hstep => hs.step hstep

end Loop
end Fish
