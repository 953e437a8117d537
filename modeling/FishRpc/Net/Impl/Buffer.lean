import FishRpc.Lib.LittleEndian
import FishRpc.Lib.SizeT

/-!
This module contains `Buffer`, the vector with a read and a write index that a channel receives into
and sends from. `data` is the memory seen from the first element of `buf_`, so the elements are at
`0 .. size - 1` and what lies around the vector is at all other offsets. Growing replaces the vector
by a new allocation, `storage` counts them. A `View` is a string view into the current allocation.
-/

namespace Fish

structure View where
  offset : Int
  size : Nat
  deriving DecidableEq

structure Buffer where
  size : Nat
  data : Int → Byte
  storage : Nat
  writeIndex : Int
  readIndex : Int

namespace Buffer

-- `heap` is the memory that surrounds the elements of the vector, they start out as zeros
def new (size : Nat) (heap : Int → Byte) : Buffer where
  size := size
  data i := if 0 ≤ i ∧ i < size then 0 else heap i
  storage := 0
  writeIndex := 0
  readIndex := 0

def read (b : Buffer) (view : View) : List Byte :=
  (List.range view.size).map fun (i : Nat) => b.data (view.offset + i)

def write (b : Buffer) (offset : Int) (bytes : List Byte) : Buffer where
  size := b.size
  data i :=
    if offset ≤ i ∧ i < offset + bytes.length then bytes.getD (i - offset).toNat 0 else b.data i
  storage := b.storage
  writeIndex := b.writeIndex
  readIndex := b.readIndex

def grow (b : Buffer) (len : Nat) (heap : Int → Byte) : Buffer where
  size := intToSize (b.writeIndex - b.readIndex + len)
  data i :=
    if 0 ≤ i ∧ i < b.writeIndex - b.readIndex then
      b.data (b.readIndex + i)
    else if 0 ≤ i ∧ i < intToSize (b.writeIndex - b.readIndex + len) then
      0
    else
      heap i
  storage := b.storage + 1
  -- the index is set to the size of the vector that has just been swapped in
  writeIndex := sizeToInt (intToSize (b.writeIndex - b.readIndex + len))
  readIndex := 0

def input (b : Buffer) (view : List Byte) (heap : Int → Byte) : Buffer :=
  let b := if view.length > intToSize (b.size - b.writeIndex) then b.grow view.length heap else b
  let b := b.write b.writeIndex view
  { b with writeIndex := sizeToInt (b.writeIndex + view.length) }

def disRead (b : Buffer) : View :=
  { offset := b.readIndex, size := intToSize (b.writeIndex - b.readIndex) }

def disWrite (b : Buffer) : View :=
  { offset := b.writeIndex, size := intToSize (b.size - b.writeIndex - 1) }

-- the assertion in `eraseData`
def EraseFits (b : Buffer) (len : Nat) : Prop :=
  b.readIndex + sizeToInt len ≤ b.writeIndex

def eraseData (b : Buffer) (len : Nat) : Buffer :=
  if b.readIndex + sizeToInt len = b.writeIndex then
    { b with readIndex := 0, writeIndex := 0 }
  else
    { b with readIndex := sizeToInt (b.readIndex + len) }

-- the assertion in `already`
def AlreadyFits (b : Buffer) (len : Nat) : Prop :=
  intToSize (sizeToInt (b.writeIndex + len)) < b.size

def already (b : Buffer) (len : Nat) : Buffer :=
  { b with writeIndex := sizeToInt (b.writeIndex + len) }

def clear (b : Buffer) : Buffer :=
  { b with writeIndex := 0, readIndex := 0 }

-- a `recv` into the window `disWrite` that stored the bytes `chunk` and has completed
def receive (b : Buffer) (chunk : List Byte) : Buffer :=
  (b.write b.disWrite.offset chunk).already chunk.length

end Buffer
end Fish
