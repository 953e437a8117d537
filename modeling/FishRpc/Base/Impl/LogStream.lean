import FishRpc.Base.Impl.LogThread

/-!
This module contains `LogBuffer` and `LogStream`: the pieces that `operator<<` writes, the conversion
of integers to text and the end of a line. `none` is a write out of the bounds of an array, an
arithmetic overflow or a failed assertion.
-/

namespace Fish

inductive IntType where
  | short
  | int
  | long
  | longLong
  | unsignedShort
  | unsignedInt
  | unsignedLong
  | unsignedLongLong
  deriving DecidableEq

namespace IntType

def signed : IntType → Bool
  | short | int | long | longLong => true
  | unsignedShort | unsignedInt | unsignedLong | unsignedLongLong => false

def width : IntType → Nat
  | short | unsignedShort => 16
  | int | unsignedInt => 32
  | long | longLong | unsignedLong | unsignedLongLong => 64

def min (t : IntType) : Int := if t.signed then -2 ^ (t.width - 1) else 0

def max (t : IntType) : Int := if t.signed then 2 ^ (t.width - 1) - 1 else 2 ^ t.width - 1

abbrev Value (t : IntType) : Type := { v : Int // t.min ≤ v ∧ v ≤ t.max }

def checked (t : IntType) (v : Int) : Option t.Value :=
  if h : t.min ≤ v ∧ v ≤ t.max then some ⟨v, h⟩ else none

-- what the overloads cast their argument to before they convert it
def promoted : IntType → IntType
  | short => int
  | unsignedShort => unsignedInt
  | t => t

end IntType

def LogBuffer.bufferSize : Nat := 10 * 1024

structure LogBuffer where
  data : List Byte
  length_data : data.length = LogBuffer.bufferSize
  writeIndex : BitVec 32

namespace LogBuffer

def headLevel : Nat := bufferSize - 3
def lowLevel : Nat := bufferSize - 256

def init : LogBuffer where
  data := List.replicate bufferSize 0
  length_data := List.length_replicate
  writeIndex := 0

-- copies to `data_ + writeIndex_` and advances the index
def put (b : LogBuffer) (src : List Byte) : Option LogBuffer :=
  if h : 0 ≤ b.writeIndex.toInt ∧ b.writeIndex.toInt + src.length ≤ bufferSize then
    some
      { data := LogThread.memcpy b.data b.writeIndex.toInt.toNat src
        length_data := by
          have hlen := b.length_data
          simp only [LogThread.memcpy, List.length_append, List.length_take, List.length_drop]
          omega
        writeIndex := b.writeIndex + BitVec.ofNat 32 src.length }
  else
    none

-- the index is compared as an unsigned number
def writeIn (b : LogBuffer) (line : List Byte) (size : BitVec 32) : Option (LogBuffer × Bool) :=
  if b.writeIndex + size > BitVec.ofNat 32 headLevel then
    some (b, false)
  else
    (b.put (line.take size.toNat)).map fun b => (b, true)

def writeEnd (b : LogBuffer) : Option (LogBuffer × Bool) := do
  let b ← b.put [13]
  let b ← b.put [10]
  return (b, decide (b.writeIndex.toInt ≥ lowLevel))

def updateMes (b : LogBuffer) : List Byte × Int := (b.data, b.writeIndex.toInt)

def refresh (b : LogBuffer) : LogBuffer := { b with writeIndex := 0 }

end LogBuffer

-- `handed` is what `updateCallBack_`, which has been set, was called with
structure LogStream where
  buf : LogBuffer
  handed : List (List Byte)

namespace LogStream

def maxNumSize : Nat := 48

-- "9876543210123456789" and the terminating zero
def digits : List Byte :=
  [57, 56, 55, 54, 53, 52, 51, 50, 49, 48, 49, 50, 51, 52, 53, 54, 55, 56, 57, 0]

-- `zero` points to `digits + 9`
def zero (lsd : Int) : Option Byte := if 0 ≤ 9 + lsd then digits[(9 + lsd).toNat]? else none

-- `room` is the number of bytes from `p` to the end of `buf`
def convertLoop (t : IntType) : Nat → t.Value → Option (List Byte)
  | 0, _ => none
  | room + 1, i => do
    let rem ← t.checked (i.val.tmod 10)
    let lsd ← IntType.int.checked rem.val
    let i ← t.checked (i.val.tdiv 10)
    let c ← zero lsd.val
    if i.val ≠ 0 then
      return c :: (← convertLoop t room i)
    else
      return [c]

def convert (t : IntType) (value : t.Value) : Option (List Byte) := do
  let buf ← convertLoop t maxNumSize value
  -- '-' is 45
  let buf := if value.val < 0 then buf ++ [45] else buf
  if buf.length + 1 ≤ maxNumSize then
    return buf.reverse
  else
    none

def integer (t : IntType) (value : t.Value) : Option (List Byte) := do
  let buf ← convert t.promoted (← t.promoted.checked value.val)
  if buf.length ≤ maxNumSize then
    return buf
  else
    none

-- the text of a `double` is what `snprintf` writes for "%.12g", which is shorter than its buffer
inductive Piece where
  | cstr (str : Option (List Byte))
  | view (str : List Byte)
  | string (str : List Byte)
  | integer (t : IntType) (value : t.Value)
  | double (text : { text : List Byte // text.length < maxNumSize })

def Piece.text : Piece → Option (List Byte)
  | cstr (some str) => some str
  -- "(null)"
  | cstr none => some [40, 110, 117, 108, 108, 41]
  | view str => some str
  | string str => some str
  | integer t value => LogStream.integer t value
  | double text => some text.val

def init : LogStream where
  buf := .init
  handed := []

def insert (s : LogStream) (piece : Piece) : Option LogStream := do
  let text ← piece.text
  let (buf, _) ← s.buf.writeIn text (BitVec.ofNat 32 text.length)
  return { s with buf }

def end_ (s : LogStream) : Option LogStream := do
  let (buf, flag) ← s.buf.writeEnd
  if flag then
    let (data, index) := buf.updateMes
    return { buf := buf.refresh, handed := s.handed ++ [data.take index.toNat] }
  else
    return { s with buf }

inductive Event where
  | insert (piece : Piece)
  | end_

def step (s : LogStream) : Event → Option LogStream
  | .insert piece => s.insert piece
  | .end_ => s.end_

end LogStream
end Fish
