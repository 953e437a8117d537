import FishRpc.Base.Impl.LogLoop
import Mathlib.Logic.Function.Basic

/-!
This module contains the threads around `mut_`: any number of callers of `apendMessage` and the log
thread. Each goes through its guard step by step: the lock, the section, the unlock by hand after a
change of buffers, the wait on the condition variable and the destructor, which unlocks whenever the
guard has locked. An unlock frees the mutex whoever holds it. `acquired` and `released` are history.
-/

namespace Fish

-- `event` is what the thread does in the section
inductive GuardPhase (α : Type) where
  | outside
  | entering (event : LogLoop.Event α)
  | inside (event : LogLoop.Event α)
  | waiting
  | leaving (flag : Bool)
  | unlocked

structure LogMutex (T α : Type) where
  loop : LogLoop α
  owner : Option T
  phase : T → GuardPhase α
  acquired : T → Nat
  released : T → Nat

namespace LogMutex

variable {T α : Type} [DecidableEq T] [LogChar α]

def init : LogMutex T α where
  loop := .init
  owner := none
  phase _ := .outside
  acquired _ := 0
  released _ := 0

def move (s : LogMutex T α) (t : T) (phase : GuardPhase α) : LogMutex T α :=
  { s with phase := Function.update s.phase t phase }

def lock (s : LogMutex T α) (t : T) : LogMutex T α :=
  { s with owner := some t, acquired := Function.update s.acquired t (s.acquired t + 1) }

def unlock (s : LogMutex T α) (t : T) : LogMutex T α :=
  { s with owner := none, released := Function.update s.released t (s.released t + 1) }

-- `flag` of `apendMessage`
def changes (s : LogMutex T α) : LogLoop.Event α → Bool
  | .append buf | .report buf => decide (s.loop.log.freeSize < buf.length)
  | _ => false

inductive Action (α : Type) where
  | enter (event : LogLoop.Event α)
  | lock
  | wait
  | wake
  | work
  | unlock
  | destroy
  | run (event : LogLoop.Event α)

-- who calls what: the log thread appends only in `writeLogMes`
def Enters (s : LogMutex T α) (logger t : T) : LogLoop.Event α → Prop
  | .append buf => t ≠ logger ∧ buf.length ≤ LogThread.maxMessage
  | .swap => t = logger ∧ s.loop.point = .waiting
  | .report buf => t = logger ∧ s.loop.point = .reporting ∧ buf.length ≤ LogLoop.maxReport
  | _ => False

-- what the log thread does without the mutex
def Runs (logger t : T) : LogLoop.Event α → Prop
  | .append _ | .swap | .report _ => False
  | _ => t = logger

instance (s : LogMutex T α) (logger t : T) (e : LogLoop.Event α)
    : Decidable (s.Enters logger t e) := by
  cases e <;> unfold Enters <;> infer_instance

instance (logger t : T) (e : LogLoop.Event α) : Decidable (Runs logger t e) := by
  cases e <;> unfold Runs <;> infer_instance

-- `none` if the step cannot happen
def step (logger : T) (s : LogMutex T α) : T × Action α → Option (LogMutex T α)
  | (t, .enter e) =>
    match s.phase t with
    | .outside => if s.Enters logger t e then some (s.move t (.entering e)) else none
    | _ => none
  | (t, .lock) =>
    match s.phase t, s.owner with
    | .entering e, none => some ((s.lock t).move t (.inside e))
    | _, _ => none
  | (t, .wait) =>
    match s.phase t with
    | .inside .swap =>
      if s.loop.log.readyBuf = [] then some ((s.unlock t).move t .waiting) else none
    | _ => none
  | (t, .wake) =>
    match s.phase t, s.owner with
    | .waiting, none => some ((s.lock t).move t (.inside .swap))
    | _, _ => none
  | (t, .work) =>
    match s.phase t with
    | .inside e =>
      match s.loop.step e with
      | some (.ok loop) => some ({ s with loop }.move t (.leaving (s.changes e)))
      | _ => none
    | _ => none
  | (t, .unlock) =>
    match s.phase t with
    | .leaving true => some ((s.unlock t).move t .unlocked)
    | _ => none
  | (t, .destroy) =>
    match s.phase t with
    | .leaving false | .unlocked => some ((s.unlock t).move t .outside)
    | _ => none
  | (t, .run e) =>
    match s.phase t with
    | .outside =>
      if Runs logger t e then
        match s.loop.step e with
        | some (.ok loop) => some { s with loop }
        | _ => none
      else
        none
    | _ => none

def Step (logger : T) (s : LogMutex T α) (e : T × Action α) (s' : LogMutex T α) : Prop :=
  s.step logger e = some s'

end LogMutex
end Fish
