import FishRpc.Base.Impl.LogFile
import FishRpc.Base.Impl.LogLoop
import FishRpc.Base.Impl.LogStream
import Mathlib.Logic.Function.Basic

/-!
This module contains the way of a line through the log: the buffer of its thread, the blocks of the
log thread and the files. `LogBuffer` has `thread_local` data, so there is a `LogStream` for each
thread. `handed` of a stream is what its thread has given to `apendMessage`. Each append is one step,
so the model leaves out what happens when two threads are in that section, see `LogMutex`. The log
thread calls `apendMessage` itself in `writeLogMes`.
-/

namespace Fish

structure LogPipeline (T : Type) where
  streams : T → LogStream
  log : LogThread Byte
  logFile : LogFile

namespace LogPipeline

variable {T : Type} [DecidableEq T]

def init (logFile : LogFile) : LogPipeline T where
  streams _ := .init
  log := .init
  logFile := logFile

inductive Event (T : Type) where
  | insert (t : T) (piece : LogStream.Piece)
  | end_ (t : T)
  | report (buf : List Byte)
  | swap
  | take
  | write (fwrite : Nat → Nat → Nat × Bool) (tm : Tm) (iterations : Nat)
  | recycle

-- what `updateCallBack_` is called with at the end of a line
def given (s : LogPipeline T) (t : T) : List (List Byte) :=
  match (s.streams t).end_ with
  | some stream => stream.handed.drop (s.streams t).handed.length
  | none => []

-- `none` if the step cannot happen
def step (s : LogPipeline T) : Event T → Option (LogPipeline T)
  | .insert t piece => do
    let stream ← (s.streams t).insert piece
    return { s with streams := Function.update s.streams t stream }
  | .end_ t => do
    let stream ← (s.streams t).end_
    let log ← (s.given t).foldlM (fun log buf => log.step (.append buf)) s.log
    return { s with streams := Function.update s.streams t stream, log }
  | .report buf =>
    if buf.length ≤ LogLoop.maxReport then
      (s.log.step (.append buf)).map fun log => { s with log }
    else
      none
  | .swap => (s.log.step .swap).map fun log => { s with log }
  | .take => (s.log.step .take).map fun log => { s with log }
  | .write fwrite tm iterations =>
    match s.log.temp with
    | some (block, false) => do
      let log ← s.log.step .write
      let logFile ← s.logFile.writeMessage iterations { message := block.contents, fwrite, tm }
      return { s with log, logFile }
    | _ => none
  | .recycle => (s.log.step .recycle).map fun log => { s with log }

def Step (s : LogPipeline T) (e : Event T) (s' : LogPipeline T) : Prop := s.step e = some s'

end LogPipeline
end Fish
