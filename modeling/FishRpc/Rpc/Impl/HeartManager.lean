import FishRpc.Lib.LittleEndian
import FishRpc.Lib.NodeList

/-!
This module contains `HeartManager`, the window of the last heartbeats and the statistics over them.
The fields that are added to the state in `Observed` are history: the heartbeats that `insertNode` was
called with, those that `updateMessage` has counted, whether it has been called since the last
insertion, how many calls of `sendHeart` have returned a packet and what `recvHeart` was called with.
-/

namespace Fish

structure HeatTask where
  sendTime : BitVec 64 := 0
  recvTime : BitVec 64 := 0
  id : BitVec 16 := 0
  serviceId : BitVec 16 := 0
  statistics : Bool := false
  deriving DecidableEq, Inhabited

structure HeartManager where
  maxSize : Nat
  list : NodeList HeatTask
  beginTime : BitVec 64
  totalTime : BitVec 64
  totalNum : BitVec 32
  lossNum : BitVec 16

namespace HeatTask

def Answered (node : HeatTask) : Prop := node.sendTime.slt node.recvTime

instance (node : HeatTask) : Decidable node.Answered :=
  inferInstanceAs (Decidable (_ = true))

-- what a recycled node takes over from the new one
def assign (old node : HeatTask) : HeatTask :=
  { old with sendTime := node.sendTime, recvTime := node.recvTime, id := node.id }

end HeatTask

namespace HeartManager

def init (maxSize : Nat) : HeartManager where
  maxSize
  list := .empty
  beginTime := 0
  totalTime := 0
  totalNum := 0
  lossNum := 0

def alive (s : HeartManager) : Bool := s.list.values.any fun node => decide node.Answered

-- `none` is `nullopt`
def sendHeart (s : HeartManager) : Option (List Byte) := if !s.alive then none else some []

def sizeofHeartData : Nat := 4

-- `none` if the assertion fails; the copy of the content is not used
def recvHeart (s : HeartManager) (content : List Byte) : Option HeartManager :=
  if content.length = sizeofHeartData then some s else none

-- `none` if the iterator of an empty list is used
def insertNode (s : HeartManager) (node : HeatTask) (now : BitVec 64) : Option HeartManager :=
  let s := if s.list.size = 0 then { s with beginTime := now } else s
  if s.list.size < s.maxSize then
    some { s with list := s.list.pushBack node }
  else
    s.list.begin?.map fun iter =>
      { s with
        list := (s.list.spliceEnd iter).modify (s.list.spliced iter).val fun old =>
          old.assign node }

-- what `updateMessage` does to the counters for a node
def count (s : HeartManager) (node : HeatTask) : HeartManager :=
  if node.statistics then
    s
  else
    let s := { s with totalNum := s.totalNum + 1 }
    if node.Answered then
      { s with totalTime := s.totalTime + (node.recvTime - node.sendTime) }
    else
      { s with lossNum := s.lossNum + 1 }

def updateMessage (s : HeartManager) : HeartManager :=
  let (s', list) := s.list.forEach count (fun node => { node with statistics := true }) s
  { s' with list }

-- `none` is a division by zero; the operands are converted to `uint32_t`
def aveTime (s : HeartManager) : Option (BitVec 16) :=
  let lossNum := s.lossNum.setWidth 32
  let divisor := s.totalNum - lossNum
  if divisor = 0 then none else some ((lossNum / divisor).setWidth 16)

inductive Event where
  | insertNode (node : HeatTask) (now : BitVec 64)
  | updateMessage
  | sendHeart
  | recvHeart (content : List Byte)

structure Observed where
  manager : HeartManager
  inserted : List HeatTask
  counted : List HeatTask
  updated : Bool
  sent : Nat
  received : List (List Byte)

namespace Observed

def init (maxSize : Nat) : Observed where
  manager := .init maxSize
  inserted := []
  counted := []
  updated := false
  sent := 0
  received := []

-- `none` if the step cannot happen
def step (s : Observed) : Event → Option Observed
  | .insertNode node now =>
    (s.manager.insertNode node now).map fun manager =>
      { s with manager, inserted := s.inserted ++ [node], updated := false }
  | .updateMessage =>
    some
      { s with
        manager := s.manager.updateMessage
        counted := s.counted ++ s.manager.list.values.filter fun node => !node.statistics
        updated := true }
  | .sendHeart => some { s with sent := s.sent + if s.manager.sendHeart.isSome then 1 else 0 }
  | .recvHeart content =>
    (s.manager.recvHeart content).map fun manager =>
      { s with manager, received := s.received ++ [content] }

end Observed
end HeartManager
end Fish
