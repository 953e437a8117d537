import FishRpc.Lib.LittleEndian

/-!
This module contains `SeriBuf`, the byte queue that serialized values are written to and read from.
The only member of the class is `buf_`. The field `stack` stands for the uninitialised memory that
the `output` functions read from when they run short of data: the bytes that the locals declared
from here on hold, in the order of their declarations. The byte order and the width of `size_t` are
those of the 64 bit targets of io_uring.
-/

namespace Fish

open LittleEndian

def sizeofSizeT : Nat := 8

abbrev Stack := Nat → Byte

structure SeriBuf where
  buf : List Byte
  stack : Stack

namespace SeriBuf

def clear (s : SeriBuf) : SeriBuf :=
  { s with buf := [] }

def input (s : SeriBuf) (buf : List Byte) : SeriBuf :=
  { s with buf := s.buf ++ buf }

def output (s : SeriBuf) (buf : List Byte) (len : Nat) : List Byte × SeriBuf :=
  -- `buf` is the object copied to, short of data its last bytes stay what they were
  let len := if len > s.buf.length then s.buf.length else len
  (s.buf.take len ++ buf.drop len, { s with buf := s.buf.drop len })

def declare (s : SeriBuf) (len : Nat) : List Byte × SeriBuf :=
  ((List.range len).map s.stack, { s with stack := fun i => s.stack (i + len) })

def inputFixed (width : Nat) (s : SeriBuf) (value : BitVec (8 * width)) : SeriBuf :=
  s.input (toBytes width value.toNat)

def inputInt8 : SeriBuf → BitVec 8 → SeriBuf := inputFixed 1
def inputInt16 : SeriBuf → BitVec 16 → SeriBuf := inputFixed 2
def inputInt32 : SeriBuf → BitVec 32 → SeriBuf := inputFixed 4
def inputInt64 : SeriBuf → BitVec 64 → SeriBuf := inputFixed 8
def inputUint8 : SeriBuf → BitVec 8 → SeriBuf := inputFixed 1
def inputUint16 : SeriBuf → BitVec 16 → SeriBuf := inputFixed 2
def inputUint32 : SeriBuf → BitVec 32 → SeriBuf := inputFixed 4
def inputUint64 : SeriBuf → BitVec 64 → SeriBuf := inputFixed 8
-- floating point values are carried around as their bit patterns
def inputFloat : SeriBuf → BitVec 32 → SeriBuf := inputFixed 4
def inputDouble : SeriBuf → BitVec 64 → SeriBuf := inputFixed 8

def inputString (s : SeriBuf) (value : List Byte) : SeriBuf :=
  let s := s.input (toBytes sizeofSizeT value.length)
  s.input value

def outputFixed (width : Nat) (s : SeriBuf) : BitVec (8 * width) × SeriBuf :=
  let (result, s) := s.declare width
  let (result, s) := s.output result width
  (BitVec.ofNat (8 * width) (ofBytes result), s)

def outputInt8 : SeriBuf → BitVec 8 × SeriBuf := outputFixed 1
def outputInt16 : SeriBuf → BitVec 16 × SeriBuf := outputFixed 2
def outputInt32 : SeriBuf → BitVec 32 × SeriBuf := outputFixed 4
def outputInt64 : SeriBuf → BitVec 64 × SeriBuf := outputFixed 8
def outputUint8 : SeriBuf → BitVec 8 × SeriBuf := outputFixed 1
def outputUint16 : SeriBuf → BitVec 16 × SeriBuf := outputFixed 2
def outputUint32 : SeriBuf → BitVec 32 × SeriBuf := outputFixed 4
def outputUint64 : SeriBuf → BitVec 64 × SeriBuf := outputFixed 8
def outputFloat : SeriBuf → BitVec 32 × SeriBuf := outputFixed 4
def outputDouble : SeriBuf → BitVec 64 × SeriBuf := outputFixed 8

def outputString (s : SeriBuf) : List Byte × SeriBuf :=
  -- `result` is never resized, so it stays empty whatever is copied to `&result[0]`; where the copy
  -- does not fit into the object, `outputStringChecked` fails
  let (size, s) := s.outputFixed sizeofSizeT
  let result := []
  let (_, s) := s.output result size.toNat
  (result, s)

end SeriBuf
end Fish
