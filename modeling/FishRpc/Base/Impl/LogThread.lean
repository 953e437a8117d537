import FishRpc.Lib.LittleEndian

/-!
This module contains `LogThread`: the buffer that `apendMessage` fills, the queues of spare, ready
and swapped buffers and the loop of the log thread that writes them. The critical sections and the
steps of `flushToFile` are the atomic steps. `file` is everything that has been written, over all log
files. The characters are a parameter, so that each byte can carry the call that it comes from.
-/

namespace Fish

class LogChar (α : Type) where
  ofByte : Byte → α

instance : LogChar Byte where
  ofByte := id

-- the call that has appended the byte
instance : LogChar (Byte × Option Nat) where
  ofByte b := (b, none)

variable {α : Type}

structure LogBlock (α : Type) where
  buf : List α
  size : Nat

def LogBlock.contents (block : LogBlock α) : List α := block.buf.take block.size

-- `temp` is the block that `flushToFile` works on and whether it has been written
structure LogThread (α : Type) where
  currentBuf : List α
  currentBufIndex : Nat
  preBuf : List (List α)
  readyBuf : List (LogBlock α)
  bufToWrite : List (LogBlock α)
  temp : Option (LogBlock α × Bool)
  file : List α

namespace LogThread

def bufSize : Nat := 100 * 1024
def bufNum : Nat := 5
def maxMessage : Nat := 10240

section

variable [LogChar α]

-- "LOG FATAL: buf over flow!\n" and the terminating zero
def overFlowMes : List α :=
  ([76, 79, 71, 32, 70, 65, 84, 65, 76, 58, 32, 98, 117, 102, 32, 111, 118, 101, 114, 32, 102, 108,
    111, 119, 33, 10, 0] : List Byte).map LogChar.ofByte

def sizeofPointer : Nat := 8

def emptyBuf : List α := List.replicate bufSize (LogChar.ofByte 0)

def init : LogThread α where
  currentBuf := emptyBuf
  currentBufIndex := 0
  preBuf := List.replicate (bufNum - 1) emptyBuf
  readyBuf := []
  bufToWrite := []
  temp := none
  file := []

end

def memcpy (dst : List α) (off : Nat) (src : List α) : List α :=
  dst.take off ++ src ++ dst.drop (off + src.length)

def freeSize (t : LogThread α) : Int := bufSize - t.currentBufIndex

def changeBuf [LogChar α] (t : LogThread α) : LogThread α :=
  match t.preBuf.getLast? with
  | some buf =>
    { t with
      currentBuf := buf
      currentBufIndex := 0
      preBuf := t.preBuf.dropLast
      readyBuf := t.readyBuf ++ [{ buf := t.currentBuf, size := t.currentBufIndex }] }
  | none =>
    { t with
      currentBuf := memcpy t.currentBuf 0 overFlowMes
      -- the size of the pointer, not that of the message
      currentBufIndex := sizeofPointer }

def apendMessage [LogChar α] (t : LogThread α) (buf : List α) : LogThread α :=
  let t := if t.freeSize < buf.length then t.changeBuf else t
  { t with
    currentBuf := memcpy t.currentBuf t.currentBufIndex buf
    currentBufIndex := t.currentBufIndex + buf.length }

-- `MyQueue::push`, a full queue leaves the element to its owner
def push (t : LogThread α) (buf : List α) : LogThread α :=
  if t.preBuf.length = bufNum then t else { t with preBuf := t.preBuf ++ [buf] }

inductive Event (α : Type) where
  | append (buf : List α)
  | swap
  | take
  | write
  | recycle

-- `none` if the step cannot happen
def step [LogChar α] (t : LogThread α) : Event α → Option (LogThread α)
  | .append buf => if buf.length ≤ maxMessage then some (t.apendMessage buf) else none
  | .swap =>
    if t.readyBuf ≠ [] ∧ t.bufToWrite = [] ∧ t.temp = none then
      some { t with bufToWrite := t.readyBuf, readyBuf := [] }
    else
      none
  | .take =>
    match t.temp, t.bufToWrite.getLast? with
    | none, some block =>
      some { t with bufToWrite := t.bufToWrite.dropLast, temp := some (block, false) }
    | _, _ => none
  | .write =>
    match t.temp with
    | some (block, false) =>
      some { t with file := t.file ++ block.contents, temp := some (block, true) }
    | _ => none
  | .recycle =>
    match t.temp with
    | some (block, true) => some { t.push block.buf with temp := none }
    | _ => none

end LogThread
end Fish
