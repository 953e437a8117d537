import FishRpc.Base.Impl.Timer

/-!
This module contains the object of a `Timer` as the constructor leaves it for any interval. Nothing is
known about its numbers, so each division, each subscript of the wheel and the size of the wheel can
be at fault.
-/

namespace Fish

inductive TimerFault where
  | divisionByZero
  | subscript
  | length
  deriving DecidableEq

@[ext]
structure TimerObject where
  timeNum : Int
  timeWheel : Nat → List TaskPtr
  tasks : TaskPtr → TimerTask
  next : TaskPtr
  priodTimerMap : Int → Option TaskPtr
  wheelIndex : Int

namespace TimerObject

def div (a b : Int) : Except TimerFault Int :=
  if b = 0 then .error .divisionByZero else .ok (a.tdiv b)

def rem (a b : Int) : Except TimerFault Int :=
  if b = 0 then .error .divisionByZero else .ok (a.tmod b)

-- the constructor
def new (timeInterval : Int) : Except TimerFault TimerObject := do
  let timeNum ← div 1000 timeInterval
  if timeNum < 0 then
    throw .length
  else
    return {
      timeNum
      timeWheel _ := []
      tasks _ := TimerTask.new false 0 false 0 0
      next := 0
      priodTimerMap _ := none
      wheelIndex := 0
    }

def init (entity : Option TimerObject) (time : Int) : Except TimerFault TimerObject :=
  match entity with
  | none => new time
  | some t => .ok t

def slot (t : TimerObject) (time : Int) : Except TimerFault Int := do
  let index := time
  let index ← div index (← div 1000 t.timeNum)
  let index ← rem index t.timeNum
  div (index + t.wheelIndex) t.timeNum

-- `mutexVec` and `timeWheel_` have `timeNum_` elements
def subscript (t : TimerObject) (index : Int) : Except TimerFault Nat :=
  if 0 ≤ index ∧ index < t.timeNum then .ok index.toNat else .error .subscript

def newTask (t : TimerObject) (task : TimerTask) : TaskPtr × TimerObject :=
  (t.next, { t with tasks := Function.update t.tasks t.next task, next := t.next + 1 })

def pushBack (t : TimerObject) (index : Nat) (timer : TaskPtr) : TimerObject :=
  { t with timeWheel := Function.update t.timeWheel index (t.timeWheel index ++ [timer]) }

def addOnceTask (t : TimerObject) (needTime : Bool) (time now : Int)
    : Except TimerFault TimerObject := do
  let index ← t.slot time
  let (timer, t) := t.newTask (.new needTime time false 0 now)
  let index ← t.subscript index
  return t.pushBack index timer

def addPriodTask (t : TimerObject) (needTime : Bool) (time id now : Int)
    : Except TimerFault (Bool × TimerObject) :=
  match t.priodTimerMap id with
  | some _ => .ok (false, t)
  | none => do
    let (timer, t) := t.newTask (.new needTime time true id now)
    let t := { t with priodTimerMap := Function.update t.priodTimerMap id (some timer) }
    let index ← t.slot time
    let index ← t.subscript index
    return (true, t.pushBack index timer)

def removePriodTask (t : TimerObject) (id : Int) : Bool × TimerObject :=
  match t.priodTimerMap id with
  | none => (false, t)
  | some _ => (true, { t with priodTimerMap := Function.update t.priodTimerMap id none })

def work (tasks : TaskPtr → TimerTask) (timer : TaskPtr) (now : Int)
    : Option Int × (TaskPtr → TimerTask) :=
  let task := tasks timer
  if task.needTime then
    (some (sizeToInt (now - task.insertTime)),
      Function.update tasks timer { task with insertTime := now })
  else
    (none, tasks)

def workAll (tasks : TaskPtr → TimerTask) (timeBegin : Int) (clock : Nat → Int)
    : List TaskPtr → (TaskPtr → TimerTask) × List Executed
  | [] => (tasks, [])
  | timer :: timeOutVec =>
    let (argument, tasks) := work tasks timer (clock 0)
    let (tasks, executed) := workAll tasks timeBegin (fun k => clock (k + 1)) timeOutVec
    (tasks, { task := timer, timeBegin := timeBegin, argument := argument } :: executed)

-- one round of the loop in `start`
def tick (t : TimerObject) (timeBegin : Int) (clock : Nat → Int)
    : Except TimerFault (TimerObject × List Executed) := do
  -- the time that `delay_ms` is given, which is not used further
  let _ ← div 1000 t.timeNum
  let index ← t.subscript t.wheelIndex
  let (timeOutVec, wheelList) :=
    EraseWalk.walk (fun timer => decide ((t.tasks timer).timePoint ≤ timeBegin))
      (fun timer => (t.tasks timer).repeatable) ((t.timeWheel index).length + 1)
      (t.timeWheel index)
  let (tasks, executed) := workAll t.tasks timeBegin clock timeOutVec
  let wheelIndex := t.wheelIndex + 1
  return ({ t with
    timeWheel := Function.update t.timeWheel index wheelList
    tasks
    wheelIndex := if wheelIndex = t.timeNum then 0 else wheelIndex }, executed)

end TimerObject
end Fish
