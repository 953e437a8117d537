import FishRpc.Base.Lemmas.TimerPeriod

/-!
This module contains what one tick does to the list of its slot. The loop erases a task and then
advances its iterator once more, so it skips the task behind an erased one, or passes the end of the
list. It does what it is to do when each due task that is erased is followed by one that is not due.
-/

namespace Fish
namespace Timer

variable (t : Timer) (timeBegin : Int) (clock : Nat → Int)

def isRepeatable (timer : TaskPtr) : Bool := (t.tasks timer).repeatable

def current : List TaskPtr := t.timeWheel t.wheelIndex

-- each due task that is not repeatable stands directly in front of one that is not due
def NothingSkipped : Prop := EraseWalk.Followed (t.isTimeOut timeBegin) t.isRepeatable t.current

structure TickExact : Prop where
  ends : ∀ n,
    EraseWalk.walk (t.isTimeOut timeBegin) t.isRepeatable (t.current.length + 1 + n) t.current
      =
    EraseWalk.walk (t.isTimeOut timeBegin) t.isRepeatable (t.current.length + 1) t.current
  inside : (EraseWalk.round (t.isTimeOut timeBegin) t.isRepeatable t.current).2.2 = false
  executed : (t.tick timeBegin clock).2.map Executed.task = t.current.filter (t.isTimeOut timeBegin)
  left : (t.tick timeBegin clock).1.timeWheel t.wheelIndex
    =
    t.current.filter fun timer => !t.isTimeOut timeBegin timer || t.isRepeatable timer

variable {t timeBegin}

theorem tick_executed
    : (t.tick timeBegin clock).2.map Executed.task = (t.scan timeBegin).1 := by
  have hboth := congrArg (List.map Prod.fst)
    ((t.scan timeBegin).2.workAll_executed timeBegin clock (t.scan timeBegin).1)
  rw [tick_eq]
  simpa [Function.comp_def] using hboth

theorem tick_timeWheel : (t.tick timeBegin clock).1.timeWheel = (t.scan timeBegin).2.timeWheel := by
  have hwork := worked_workAll (t.scan timeBegin).2 timeBegin clock (t.scan timeBegin).1
  rw [tick_eq]
  simp only [advance_eq, hwork.timeWheel]

theorem scan_of_inside
    (h : (EraseWalk.round (t.isTimeOut timeBegin) t.isRepeatable t.current).2.2 = false)
    : (t.scan timeBegin).1 = (EraseWalk.round (t.isTimeOut timeBegin) t.isRepeatable t.current).1 ∧
      (t.scan timeBegin).2.timeWheel t.wheelIndex
        =
      (EraseWalk.round (t.isTimeOut timeBegin) t.isRepeatable t.current).2.1 := by
  have hwalk := @EraseWalk.walk_succ _ (t.isTimeOut timeBegin) t.isRepeatable t.current.length
    t.current
  simp only [h] at hwalk
  rw [scan_eq]
  unfold current isRepeatable at hwalk
  simp only [Function.update_self, hwalk]
  exact ⟨rfl, rfl⟩

theorem TickExact.nothingSkipped (h : t.TickExact timeBegin clock)
    : t.NothingSkipped timeBegin := by
  have hexecuted := h.executed
  rw [tick_executed, (scan_of_inside h.inside).1] at hexecuted
  exact EraseWalk.round_iff.mp ⟨h.inside, hexecuted⟩

theorem tickExact_of_nothingSkipped (h : t.NothingSkipped timeBegin)
    : t.TickExact timeBegin clock := by
  have hround := EraseWalk.round_of_followed h
  have hinside : (EraseWalk.round (t.isTimeOut timeBegin) t.isRepeatable t.current).2.2 = false := by
    rw [hround]
  constructor
  . apply t.scan_ends timeBegin
  . apply hinside
  . rw [tick_executed, (scan_of_inside hinside).1, hround]
  . rw [tick_timeWheel, (scan_of_inside hinside).2, hround]

/--
A tick executes the due tasks, once and in order, and leaves the others and the repeatable ones
exactly when each due task that is not repeatable is followed by one that is not due.
-/
theorem tickExact_iff (t : Timer) (timeBegin : Int) (clock : Nat → Int)
    : t.TickExact timeBegin clock ↔ t.NothingSkipped timeBegin :=
  ⟨TickExact.nothingSkipped clock, tickExact_of_nothingSkipped clock⟩

-- two due tasks in one slot, the second one is skipped
theorem not_tickExact_two
    : ¬∀ (t : Timer) (timeBegin : Int) (clock : Nat → Int), t.TickExact timeBegin clock := by
  intro hall
  have hexecuted := (hall (((Timer.new 100 (by decide) (by decide)).addOnceTask false 0 0).addOnceTask
    false 0 0) 100 fun _ => 100).executed
  revert hexecuted
  decide

end Timer
end Fish
