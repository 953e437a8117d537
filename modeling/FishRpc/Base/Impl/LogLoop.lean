import FishRpc.Base.Impl.LogThread

/-!
This module contains the control of the log thread around its buffers: `logLoop` and `flushToFile` as
the log thread goes through them, `reloadMes_` and the calls of `apendMessage`. An assertion that
fails, a copy past the end of a buffer, a pop of an empty queue and a buffer that `push` refuses end a
step with a `LogFailure`.
-/

namespace Fish

inductive LogFailure where
  | freeSize
  | copy
  | bufToWrite
  | blocks
  | back
  | push
  deriving DecidableEq

-- where the log thread is: in front of its critical section, behind it, in front of round `i` of
-- `flushToFile` or in it, and in `writeLogMes`
inductive LogPoint where
  | waiting
  | swapped
  | flushing (size i : Nat)
  | reporting
  deriving DecidableEq

structure LogLoop (α : Type) where
  log : LogThread α
  reloadMes : Bool
  point : LogPoint

namespace LogLoop

variable {α : Type} [LogChar α]

-- "char buf[512]" is filled by `snprintf(buf, 256, ...)`
def maxReport : Nat := 255

def init : LogLoop α where
  log := .init
  reloadMes := false
  point := .waiting

def changeBuf (t : LogLoop α) : Except LogFailure (LogLoop α) :=
  if t.log.preBuf = [] then
    if (LogThread.overFlowMes : List α).length ≤ t.log.currentBuf.length then
      .ok { t with log := t.log.changeBuf, reloadMes := true }
    else
      .error .copy
  else
    .ok { t with log := t.log.changeBuf }

def apendMessage (t : LogLoop α) (buf : List α) : Except LogFailure (LogLoop α) := do
  if t.log.freeSize < 0 then
    throw .freeSize
  let t ← if t.log.freeSize < buf.length then t.changeBuf else pure t
  if t.log.currentBufIndex + buf.length ≤ t.log.currentBuf.length then
    return { t with
      log := { t.log with
        currentBuf := LogThread.memcpy t.log.currentBuf t.log.currentBufIndex buf
        currentBufIndex := t.log.currentBufIndex + buf.length } }
  else
    throw .copy

inductive Event (α : Type) where
  | append (buf : List α)
  | swap
  | flush
  | take
  | write
  | recycle
  | finish (printMes : Bool)
  | report (buf : List α)

-- `none` if the step cannot happen
def step (t : LogLoop α) : Event α → Option (Except LogFailure (LogLoop α))
  | .append buf => if buf.length ≤ LogThread.maxMessage then some (t.apendMessage buf) else none
  | .swap =>
    if t.point = .waiting ∧ t.log.readyBuf ≠ [] then
      if t.log.bufToWrite = [] then
        some <| .ok { t with
          log := { t.log with bufToWrite := t.log.readyBuf, readyBuf := t.log.bufToWrite }
          point := .swapped }
      else
        some (.error .bufToWrite)
    else
      none
  | .flush =>
    if t.point = .swapped then
      if t.log.bufToWrite.length ≤ 5 then
        some (.ok { t with point := .flushing t.log.bufToWrite.length 0 })
      else
        some (.error .blocks)
    else
      none
  | .take =>
    match t.point, t.log.temp with
    | .flushing size i, none =>
      if i < size then
        match t.log.bufToWrite.getLast? with
        | some block =>
          some <| .ok { t with
            log := { t.log with
              bufToWrite := t.log.bufToWrite.dropLast, temp := some (block, false) } }
        | none => some (.error .back)
      else
        none
    | _, _ => none
  | .write =>
    match t.log.temp with
    | some (block, false) =>
      some <| .ok { t with
        log := { t.log with
          file := t.log.file ++ block.contents, temp := some (block, true) } }
    | _ => none
  | .recycle =>
    match t.point, t.log.temp with
    | .flushing size i, some (block, true) =>
      if t.log.preBuf.length = LogThread.bufNum then
        some (.error .push)
      else
        some <| .ok { t with
          log := { t.log.push block.buf with temp := none }
          point := .flushing size (i + 1) }
    | _, _ => none
  | .finish printMes =>
    match t.point, t.log.temp with
    | .flushing size i, none =>
      if i < size then
        none
      else if printMes then
        some (.ok { t with reloadMes := false, point := .reporting })
      else
        some (.ok { t with point := .waiting })
    | _, _ => none
  | .report buf =>
    if t.point = .reporting ∧ buf.length ≤ maxReport then
      some ({ t with point := .waiting }.apendMessage buf)
    else
      none

def Step (t : LogLoop α) (e : Event α) (t' : LogLoop α) : Prop := t.step e = some (.ok t')

end LogLoop
end Fish
