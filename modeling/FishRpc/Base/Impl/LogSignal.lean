import FishRpc.Base.Impl.LogMutex

/-!
This module contains the threads around `mut_` and `waiter_`, guard by guard and step by step: those
that call `apendMessage` and the log thread, which tests `readyBuf_` and waits in two steps. What is
between the lock and the unlock of an append is one step. Every unlock frees the mutex whoever holds
it, and `wait` does so too. The log thread is the only one that waits.
-/

namespace Fish

-- `event` is what the thread does in the section; `tested` has found no ready buffer, `asleep` is in
-- `wait` and `woken` still has to lock
inductive SignalPhase (α : Type) where
  | outside
  | entering (event : LogLoop.Event α)
  | inside (event : LogLoop.Event α)
  | tested
  | asleep
  | woken
  | leaving (flag : Bool)
  | unlocked
  | notified

-- what `notify_one` does to the thread that waits
def SignalPhase.roused {α : Type} : SignalPhase α → SignalPhase α
  | asleep => woken
  | phase => phase

structure LogSignal (T α : Type) where
  loop : LogLoop α
  owner : Option T
  phase : T → SignalPhase α

namespace LogSignal

variable {T α : Type} [DecidableEq T] [LogChar α]

def init : LogSignal T α where
  loop := .init
  owner := none
  phase _ := .outside

def move (s : LogSignal T α) (t : T) (phase : SignalPhase α) : LogSignal T α :=
  { s with phase := Function.update s.phase t phase }

def notifyOne (s : LogSignal T α) (logger : T) : LogSignal T α :=
  s.move logger (s.phase logger).roused

-- `flag` of `apendMessage`
def changes (s : LogSignal T α) : LogLoop.Event α → Bool
  | .append buf | .report buf => decide (s.loop.log.freeSize < buf.length)
  | _ => false

-- `rouse` is a spurious wake-up
inductive Action (α : Type) where
  | enter (event : LogLoop.Event α)
  | lock
  | test
  | wait
  | rouse
  | work
  | unlock
  | notify
  | destroy
  | run (event : LogLoop.Event α)

-- who calls what: the log thread appends only in `writeLogMes`
def Enters (t : LogLoop α) (logger u : T) : LogLoop.Event α → Prop
  | .append buf => u ≠ logger ∧ buf.length ≤ LogThread.maxMessage
  | .swap => u = logger ∧ t.point = .waiting
  | .report buf => u = logger ∧ t.point = .reporting ∧ buf.length ≤ LogLoop.maxReport
  | _ => False

instance (t : LogLoop α) (logger u : T) : ∀ e, Decidable (Enters t logger u e)
  | .append _ | .swap => inferInstanceAs (Decidable (_ ∧ _))
  | .report _ => inferInstanceAs (Decidable (_ ∧ _ ∧ _))
  | .flush | .take | .write | .recycle | .finish _ => isFalse id

-- `none` if the step cannot happen
def step (logger : T) (s : LogSignal T α) : T × Action α → Option (LogSignal T α)
  | (t, .enter e) =>
    match s.phase t with
    | .outside => if Enters s.loop logger t e then some (s.move t (.entering e)) else none
    | _ => none
  | (t, .lock) =>
    match s.phase t, s.owner with
    | .entering e, none => some ({ s with owner := some t }.move t (.inside e))
    | .woken, none => some ({ s with owner := some t }.move t (.inside .swap))
    | _, _ => none
  | (t, .test) =>
    match s.phase t with
    | .inside .swap => if s.loop.log.readyBuf = [] then some (s.move t .tested) else none
    | _ => none
  | (t, .wait) =>
    match s.phase t with
    | .tested => some ({ s with owner := none }.move t .asleep)
    | _ => none
  | (t, .rouse) =>
    match s.phase t with
    | .asleep => some (s.move t .woken)
    | _ => none
  | (t, .work) =>
    match s.phase t with
    | .inside e =>
      match s.loop.step e with
      | some (.ok loop) => some ({ s with loop }.move t (.leaving (s.changes e)))
      | _ => none
    | _ => none
  | (t, .unlock) =>
    match s.phase t with
    | .leaving true => some ({ s with owner := none }.move t .unlocked)
    | _ => none
  | (t, .notify) =>
    match s.phase t with
    | .unlocked => some ((s.notifyOne logger).move t .notified)
    | _ => none
  | (t, .destroy) =>
    match s.phase t with
    | .leaving false | .notified => some ({ s with owner := none }.move t .outside)
    | _ => none
  | (t, .run e) =>
    match s.phase t with
    | .outside =>
      if LogMutex.Runs logger t e then
        match s.loop.step e with
        | some (.ok loop) => some { s with loop }
        | _ => none
      else
        none
    | _ => none

def Step (logger : T) (s : LogSignal T α) (e : T × Action α) (s' : LogSignal T α) : Prop :=
  s.step logger e = some s'

end LogSignal
end Fish
