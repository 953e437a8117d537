import FishRpc.Lib.CString

/-!
This module contains `LogFile`: the loop over `fwrite` in `writeMessage`, the change of files and the
names that `getNum` numbers. What the C library does is a parameter of each call: how many bytes each
`fwrite` takes and whether the stream has an error then, and the clock. `closed` is history: the files
that have been filled, with what has been written to them since they were opened.
-/

namespace Fish

-- the fields of `struct tm` that are printed
structure Tm where
  year : Int
  mon : Int
  mday : Int
  hour : Int
  min : Int

structure OpenFile where
  name : List Byte
  content : List Byte

structure LogFile where
  writeBytes : Nat
  fileCount : BitVec 32
  file : OpenFile
  closed : List OpenFile

namespace LogFile

def maxSizePreFile : Nat := 100 * 1024 * 1024

-- `_` is 95 and "-" is 45
def underscore : Byte := 95
def hyphen : Byte := 45

-- ".log"
def extension : List Byte := [46, 108, 111, 103]

def sizeofBuf : Nat := 16

-- `temp % 10 + '0'` for each digit; `none` if there is no room for it
def numLoop : Nat → Int → Option (List Byte)
  | 0, temp => if temp = 0 then some [] else none
  | room + 1, temp =>
    if temp = 0 then some []
    else (numLoop room (temp.tdiv 10)).map fun buf => BitVec.ofInt 8 (temp.tmod 10 + 48) :: buf

-- what is in the zeroed array afterwards
def getNum (fileCount : Int) : Option (List Byte) := do
  let digits ← numLoop (sizeofBuf - 1) fileCount
  let text := underscore :: (digits ++ extension)
  if text.length ≤ sizeofBuf then
    return text ++ List.replicate (sizeofBuf - text.length) 0
  else
    none

-- `%4d` and `%02d`
def pad (c : Byte) (width : Nat) (text : List Byte) : List Byte :=
  List.replicate (width - text.length) c ++ text

-- "%4d-%02d-%02d-%02d-%02d"
def toLogFileName (tm : Tm) : List Byte :=
  let two (v : Int) := hyphen :: pad 48 2 (Decimal.numeral v)
  let text :=
    pad 32 4 (Decimal.numeral (tm.year + 1900)) ++ two (tm.mon + 1) ++ two tm.mday ++ two tm.hour ++
      two tm.min
  text.take 63

-- `fileName_` is empty; `none` if `buf` is not terminated
def fileName (tm : Tm) (fileCount : Int) : Option (List Byte) := do
  let buf ← getNum fileCount
  if 0 ∈ buf then
    return toLogFileName tm ++ CString.cStr buf
  else
    none

def openFile (tm : Tm) (fileCount : BitVec 32) (closed : List OpenFile) : Option LogFile :=
  (fileName tm fileCount.toInt).map fun name =>
    { writeBytes := 0
      fileCount := fileCount + 1
      file := { name := name, content := [] }
      closed }

def new (tm : Tm) : Option LogFile := openFile tm 1 []

def changeFile (s : LogFile) (tm : Tm) : Option LogFile :=
  openFile tm s.fileCount (s.closed ++ [s.file])

-- `fwrite n remain` is the result of the call number `n`, for `remain` bytes, and `ferror` after it
structure Call where
  message : List Byte
  fwrite : Nat → Nat → Nat × Bool
  tm : Tm

-- `none` if the loop has not ended after the iterations; `n` calls have been made
def writeLoop (c : Call) : Nat → Nat → Nat → List Byte → Option (Nat × List Byte)
  | iterations, n, written, content =>
    if written = c.message.length then
      some (written, content)
    else
      match iterations with
      | 0 => none
      | iterations + 1 =>
        let remain := c.message.length - written
        let (count, err) := c.fwrite n remain
        let content := content ++ (c.message.drop written).take count
        if count ≠ remain ∧ err then
          some (written, content)
        else
          writeLoop c iterations (n + 1) (written + count) content

def writeMessage (s : LogFile) (iterations : Nat) (c : Call) : Option LogFile := do
  let (written, content) ← writeLoop c iterations 0 0 s.file.content
  let s := { s with
    file := { s.file with content }
    writeBytes := s.writeBytes + written }
  if s.writeBytes > maxSizePreFile then
    s.changeFile c.tm
  else
    return s

end LogFile
end Fish
