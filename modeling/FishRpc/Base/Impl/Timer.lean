import FishRpc.Lib.EraseWalk
import FishRpc.Lib.SizeT
import Mathlib.Logic.Function.Basic

/-!
This module contains `Timer`, the wheel of lists of tasks. A task is known by its address, what its
function does is not modelled. Times are in milliseconds. The clock that `work` reads for the `k`-th
task of a tick is `clock k`.
-/

namespace Fish

abbrev TaskPtr := Nat

-- `needTime` tells `NeedTime` from `NotNeedTime`
structure TimerTask where
  timePoint : Int
  insertTime : Int
  repeatable : Bool
  id : Int
  needTime : Bool

def TimerTask.new (needTime : Bool) (time : Int) (repeatable : Bool) (id now : Int) : TimerTask where
  timePoint := now + time
  insertTime := now
  repeatable := repeatable
  id := id
  needTime := needTime

-- the tasks at the addresses `0 .. next - 1` have been allocated
structure Timer where
  timeNum : Nat
  timeWheel : Nat → List TaskPtr
  tasks : TaskPtr → TimerTask
  next : TaskPtr
  priodTimerMap : Int → Option TaskPtr
  wheelIndex : Nat
  timeNum_pos : 0 < timeNum
  timeNum_le : timeNum ≤ 1000
  wheelIndex_lt : wheelIndex < timeNum

-- a call of `work`, `argument` is what it passes to the function of a `NeedTime`
structure Executed where
  task : TaskPtr
  timeBegin : Int
  argument : Option Int
  deriving DecidableEq

namespace Timer

def new (timeInterval : Nat) (hpos : 0 < timeInterval) (hle : timeInterval ≤ 1000) : Timer where
  timeNum := 1000 / timeInterval
  timeWheel _ := []
  tasks _ := TimerTask.new false 0 false 0 0
  next := 0
  priodTimerMap _ := none
  wheelIndex := 0
  timeNum_pos := Nat.div_pos hle hpos
  timeNum_le := Nat.div_le_self 1000 timeInterval
  wheelIndex_lt := Nat.div_pos hle hpos

def slotTime (t : Timer) : Nat := 1000 / t.timeNum

def slot (t : Timer) (time : Int) : Nat :=
  let index := time
  let index := index.tdiv t.slotTime
  let index := index.tmod t.timeNum
  let index := (index + t.wheelIndex).tdiv t.timeNum
  intToSize index

def newTask (t : Timer) (task : TimerTask) : TaskPtr × Timer :=
  (t.next, { t with tasks := Function.update t.tasks t.next task, next := t.next + 1 })

def pushBack (t : Timer) (index : Nat) (timer : TaskPtr) : Timer :=
  { t with
    timeWheel := Function.update t.timeWheel index (t.timeWheel index ++ [timer]) }

def addOnceTask (t : Timer) (needTime : Bool) (time now : Int) : Timer :=
  let index := t.slot time
  let (timer, t) := t.newTask (.new needTime time false 0 now)
  t.pushBack index timer

def addPriodTask (t : Timer) (needTime : Bool) (time id now : Int) : Bool × Timer :=
  match t.priodTimerMap id with
  | some _ => (false, t)
  | none =>
    let (timer, t) := t.newTask (.new needTime time true id now)
    let t := { t with priodTimerMap := Function.update t.priodTimerMap id (some timer) }
    let index := t.slot time
    (true, t.pushBack index timer)

def removePriodTask (t : Timer) (id : Int) : Bool × Timer :=
  match t.priodTimerMap id with
  | none => (false, t)
  | some _ => (true, { t with priodTimerMap := Function.update t.priodTimerMap id none })

def work (t : Timer) (timer : TaskPtr) (now : Int) : Option Int × Timer :=
  let task := t.tasks timer
  if task.needTime then
    (some (sizeToInt (now - task.insertTime)),
      { t with tasks := Function.update t.tasks timer { task with insertTime := now } })
  else
    (none, t)

def workAll (t : Timer) (timeBegin : Int) (clock : Nat → Int) : List TaskPtr → Timer × List Executed
  | [] => (t, [])
  | timer :: timeOutVec =>
    let (argument, t) := t.work timer (clock 0)
    let (t, executed) := t.workAll timeBegin (fun k => clock (k + 1)) timeOutVec
    (t, { task := timer, timeBegin := timeBegin, argument := argument } :: executed)

def isTimeOut (t : Timer) (timeBegin : Int) (timer : TaskPtr) : Bool :=
  (t.tasks timer).timePoint ≤ timeBegin

-- the part of a tick that holds the mutex of the slot
def scan (t : Timer) (timeBegin : Int) : List TaskPtr × Timer :=
  let wheelList := t.timeWheel t.wheelIndex
  let (timeOutVec, wheelList) :=
    EraseWalk.walk (t.isTimeOut timeBegin) (fun timer => (t.tasks timer).repeatable)
      (wheelList.length + 1) wheelList
  (timeOutVec, { t with timeWheel := Function.update t.timeWheel t.wheelIndex wheelList })

def advance (t : Timer) : Timer :=
  if h : t.wheelIndex + 1 = t.timeNum then
    { t with wheelIndex := 0, wheelIndex_lt := t.timeNum_pos }
  else
    { t with wheelIndex := t.wheelIndex + 1, wheelIndex_lt := by have := t.wheelIndex_lt; omega }

-- one round of the loop in `start`
def tick (t : Timer) (timeBegin : Int) (clock : Nat → Int) : Timer × List Executed :=
  let (timeOutVec, t) := t.scan timeBegin
  let (t, executed) := t.workAll timeBegin clock timeOutVec
  (t.advance, executed)

end Timer
end Fish
