import FishRpc.Base.Impl.LogLoop
import Mathlib.Logic.Function.Basic

/-!
This module contains what `waiter_` is for: the log thread sleeps until a buffer is ready, and the
callers of `apendMessage` leave the critical section first and notify afterwards. It is the abstract
form of `LogSignal`, with each critical section as one step. The notification of `writeLogMes` is left
out, since the log thread is the only one that waits.
-/

namespace Fish

-- `notifying` says which threads have changed the buffer and not called `notify_one` yet
structure LogWaiter (T α : Type) where
  loop : LogLoop α
  sleeping : Bool
  notifying : T → Bool

namespace LogWaiter

variable {T α : Type} [DecidableEq T] [LogChar α]

def init : LogWaiter T α where
  loop := .init
  sleeping := false
  notifying _ := false

-- `wake` is a spurious one
inductive Event (T α : Type) where
  | append (t : T) (buf : List α)
  | notify (t : T)
  | wait
  | wake
  | work (event : LogLoop.Event α)

-- the log thread appends only in `writeLogMes`
def appends : LogLoop.Event α → Bool
  | .append _ => true
  | .swap | .flush | .take | .write | .recycle | .finish _ | .report _ => false

-- `none` if the step cannot happen or fails
def step (s : LogWaiter T α) : Event T α → Option (LogWaiter T α)
  | .append t buf =>
    if s.notifying t then
      none
    else
      let flag := decide (s.loop.log.freeSize < buf.length)
      match s.loop.step (.append buf) with
      | some (.ok loop) =>
        some { s with loop, notifying := Function.update s.notifying t flag }
      | _ => none
  | .notify t =>
    if s.notifying t then
      some { s with sleeping := false, notifying := Function.update s.notifying t false }
    else
      none
  | .wait =>
    if s.loop.point = .waiting ∧ s.loop.log.readyBuf = [] ∧ !s.sleeping then
      some { s with sleeping := true }
    else
      none
  | .wake => if s.sleeping then some { s with sleeping := false } else none
  | .work event =>
    if s.sleeping ∨ appends event then
      none
    else
      match s.loop.step event with
      | some (.ok loop) => some { s with loop }
      | _ => none

def Step (s : LogWaiter T α) (e : Event T α) (s' : LogWaiter T α) : Prop := s.step e = some s'

end LogWaiter
end Fish
