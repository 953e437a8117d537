import FishRpc.Base.Impl.LogFile
import FishRpc.Base.Impl.LogStream

/-!
This module contains `Logger`: what a line begins with before the pieces of its message. `fileN` and
`funN` are the bytes that the two strings of the thread have room for. `none` is a write behind them
or a failed assertion.
-/

namespace Fish

-- what a `const char *` points to
abbrev CText : Type := { s : List Byte // 0 ∉ s }

inductive LogLevel where
  | info
  | debug
  | fatal
  | http

-- `count` is the number of microseconds since the epoch
def TimePoint.toLogString (count : Int) : List Byte :=
  let two (v : Int) := LogFile.pad 48 2 (Decimal.numeral v)
  -- `%06ld`, the zeros are behind the sign
  let six (v : Int) :=
    if v < 0 then Decimal.minus :: LogFile.pad 48 5 (Decimal.magnitude v.natAbs)
    else LogFile.pad 48 6 (Decimal.magnitude v.natAbs)
  let value := count.tdiv 1000000 + 8 * 3600
  -- `tm_hour`, `tm_min` and `tm_sec` of `gmtime_r`
  let ofDay := value % 86400
  let text := two (ofDay / 3600) ++ 58 :: two (ofDay / 60 % 60) ++ 58 :: two (ofDay % 60) ++
    46 :: six (count.tmod 1000000)
  text ++ List.replicate (64 - text.length) 0

structure Logger where
  fileN : List Byte
  funN : List Byte
  stream : LogStream

-- what a line of the program hands over
structure LogCall where
  count : Int
  tid : IntType.int.Value
  fileName : CText
  line : IntType.int.Value
  funName : CText
  pieces : List LogStream.Piece

namespace Logger

def maxNameSize : Nat := 25

-- '/' is 47
def slash : Byte := 47

-- "\t"
def tab : List Byte := [9]

def blanks : List Byte := List.replicate 63 32

def logLevel : LogLevel := .debug

def levelToStr : List Byte :=
  match logLevel with
  | .info => [73, 110, 102, 111, 58, 32]
  | .debug => [68, 101, 98, 117, 103, 58, 32]
  | .fatal => [70, 97, 116, 97, 108, 58, 32]
  | .http => [72, 84, 84, 80, 58, 32]

def resize (size : Nat) (s : List Byte) : List Byte :=
  s.take size ++ List.replicate (size - s.length) 0

def resizeBuf (l : Logger) : Logger :=
  { l with fileN := resize maxNameSize l.fileN, funN := resize maxNameSize l.funN }

-- the position behind the last '/'
def findFileName (fileName : List Byte) : Option Nat :=
  (fileName.reverse.findIdx? fun b => b == slash).map fun i => fileName.length - 1 - i + 1

def write (buf : List Byte) (off : Nat) (src : List Byte) : Option (List Byte) :=
  if off + src.length ≤ buf.length then some (LogThread.memcpy buf off src) else none

def dealLogStr (str buf : List Byte) (maxSize : Nat) : Option (List Byte) := do
  let maxSize := min maxSize (maxNameSize - 1)
  let size := str.length
  let size := min size maxSize
  let buf ← write buf 0 (str.take size)
  let buf ← if maxSize > size then write buf size (blanks.take (maxSize - size)) else some buf
  write buf maxSize [0]

-- the default of `maxSize`
def defaultSize : Nat := 15

def insertAll (stream : LogStream) (pieces : List LogStream.Piece) : Option LogStream :=
  pieces.foldlM LogStream.insert stream

def receive (l : Logger) (call : LogCall) : Option Logger := do
  let fileName := call.fileName.val
  let fileN ← dealLogStr (fileName.drop (← findFileName fileName)) l.fileN defaultSize
  let funN ← dealLogStr call.funName.val l.funN defaultSize
  let stream ← insertAll l.stream [.string (TimePoint.toLogString call.count), .cstr (some tab),
    .integer .int call.tid, .cstr (some tab), .cstr (some (CString.cStr fileN)), .cstr (some tab),
    .integer .int call.line, .cstr (some tab), .cstr (some (CString.cStr funN)), .cstr (some tab),
    .cstr (some levelToStr)]
  return { fileN, funN, stream }

-- `LOG_DEBUG << piece << .. << Fish::end`
def log (l : Logger) (call : LogCall) : Option Logger := do
  let l ← l.receive call
  let stream ← insertAll l.stream call.pieces
  let stream ← stream.end_
  return { l with stream }

end Logger
end Fish
