import Mathlib.Logic.Function.Basic

/-!
This module contains `Loop`: a thread in `beginInCurrentThread`, any number of threads in
`addTempTask` and calls of `closeLoop` at any time. The guards of `tempTaskMut_` are taken step by
step. `reserve` in front of the loop takes none, so it is two steps: the elements are moved to new
memory, and the vector is set to it. Code of the user, which can add tasks and close the loop, runs
in the loop thread as `initTask_`, as `task_` and as a temporary task. `added` and `executed` are
history.
-/

namespace Fish

-- where a thread is in `addTempTask`
inductive AddPhase (α : Type) where
  | outside
  | entering (task : α)
  | inside (task : α)
  | leaving

-- where the loop thread is in `beginInCurrentThread`; `moved` is what `reserve` has copied and `next`
-- is the position in `temp`
inductive LoopPhase (α : Type) where
  | stopped
  | reserving
  | moving (moved : List α)
  | naming
  | flagging
  | starting
  | checking
  | working
  | entering
  | inside
  | leaving (temp : List α)
  | batch (temp : List α) (next : Nat)
  | running (temp : List α) (next : Nat)

namespace LoopPhase

-- code of the user runs
def user {α : Type} : LoopPhase α → Bool
  | stopped | starting | working | running _ _ => true
  | reserving | moving _ | naming | flagging | checking | entering | inside | leaving _ | batch _ _ =>
    false

end LoopPhase

-- `looped` is that `thread_loop_id` of the loop thread has been set, `capacity` that of `tempTasks_`
structure Loop (T α : Type) where
  flag : Bool
  tempTasks : List α
  capacity : Nat
  owner : Option T
  phase : LoopPhase α
  call : T → AddPhase α
  looped : Bool
  added : List α
  executed : List α

namespace Loop

variable {T α : Type} [DecidableEq T]

def init : Loop T α where
  flag := false
  tempTasks := []
  capacity := 0
  owner := none
  phase := .stopped
  call _ := .outside
  looped := false
  added := []
  executed := []

def move (s : Loop T α) (t : T) (phase : AddPhase α) : Loop T α :=
  { s with call := Function.update s.call t phase }

inductive Event (T α : Type) where
  | addTempTask (t : T) (task : α)
  | lock (t : T)
  | pushBack (t : T)
  | unlock (t : T)
  | closeLoop
  | begin
  | advance

-- `tempTasks_.push_back`, which doubles the memory where it is full
def push (s : Loop T α) (task : α) : Loop T α :=
  { s with
    tempTasks := s.tempTasks ++ [task]
    capacity := if s.tempTasks.length < s.capacity then s.capacity else max 1 (2 * s.capacity) }

-- the next step of `beginInCurrentThread`
def advance (looper : T) (s : Loop T α) : Option (Loop T α) :=
  match s.phase with
  | .stopped => none
  | .reserving =>
    some { s with phase := if s.capacity < 8 then .moving s.tempTasks else .naming }
  | .moving moved => some { s with phase := .naming, tempTasks := moved, capacity := 8 }
  | .naming => some { s with phase := .flagging, looped := true }
  | .flagging => some { s with phase := .starting, flag := true }
  | .starting => some { s with phase := .checking }
  | .checking => some { s with phase := if s.flag then .working else .stopped }
  | .working => some { s with phase := .entering }
  | .entering =>
    match s.owner with
    | none => some { s with owner := some looper, phase := .inside }
    | some _ => none
  | .inside => some { s with phase := .leaving s.tempTasks, tempTasks := [], capacity := 8 }
  | .leaving temp => some { s with owner := none, phase := .batch temp 0 }
  | .batch temp next =>
    match temp[next]? with
    | some task => some { s with phase := .running temp next, executed := s.executed ++ [task] }
    | none => some { s with phase := .checking }
  | .running temp next => some { s with phase := .batch temp (next + 1) }

-- `none` if the step cannot happen
def step (looper : T) (s : Loop T α) : Event T α → Option (Loop T α)
  | .addTempTask t task =>
    match s.call t with
    | .outside =>
      if t = looper ∧ s.phase.user = false then none else some (s.move t (.entering task))
    | _ => none
  | .lock t =>
    match s.call t, s.owner with
    | .entering task, none => some ({ s with owner := some t }.move t (.inside task))
    | _, _ => none
  | .pushBack t =>
    match s.call t with
    | .inside task => some ({ s.push task with added := s.added ++ [task] }.move t .leaving)
    | _ => none
  | .unlock t =>
    match s.call t with
    | .leaving => some ({ s with owner := none }.move t .outside)
    | _ => none
  | .closeLoop => some { s with flag := false }
  | .begin =>
    match s.call looper with
    | .outside =>
      if s.phase.user = false then none
      -- it throws
      else if s.looped ∨ s.flag then some s
      else some { s with phase := .reserving }
    | _ => none
  | .advance =>
    match s.call looper with
    | .outside => s.advance looper
    | _ => none

def Step (looper : T) (s : Loop T α) (e : Event T α) (s' : Loop T α) : Prop :=
  s.step looper e = some s'

end Loop
end Fish
