import FishRpc.Lib.CString
import Mathlib.Logic.Function.Basic

/-!
This module contains `FileRead::readLine` and `LocalMassage`, which reads the lines `key: value` of a
configuration file into a map. `Parse.step` is one iteration of the loop in the constructor.
-/

namespace Fish

-- the bytes that have not been extracted yet and the flags of the stream
structure FileRead where
  rest : List Byte
  eof : Bool
  fail : Bool

namespace FileRead

def newline : Byte := 10

def lineSize : Nat := 1024

def ofContent (content : List Byte) : FileRead where
  rest := content
  eof := false
  fail := false

-- `getline(buf, 1024, '\n')`; the result is what has been stored in `buf`
def getline (f : FileRead) : List Byte × FileRead :=
  if f.eof ∨ f.fail then
    ([], { f with fail := true })
  else
    let stored := (f.rest.takeWhile fun c => c != newline).take (lineSize - 1)
    match f.rest.drop stored.length with
    | [] => (stored, { rest := [], eof := true, fail := decide (stored = []) })
    | c :: rest =>
      if c = newline then
        (stored, { f with rest := rest })
      else
        (stored, { f with rest := c :: rest, fail := true })

def readLine (f : FileRead) : List Byte × Bool × FileRead :=
  let (buf, f) := f.getline
  (CString.cStr buf, !f.eof, f)

end FileRead

namespace LocalMassage

abbrev ConfMap : Type := List Byte → Option (List Byte)

-- ':' is 58
def colon : Byte := 58

-- the key and the value of a line; `none` if `iter + 2` is past its end
def split (mes : List Byte) : Option (List Byte × List Byte) :=
  let iter := mes.findIdx fun c => c == colon
  if iter + 2 ≤ mes.length then some (mes.take iter, mes.drop (iter + 2)) else none

inductive Parse where
  | reading (file : FileRead) (confMap : ConfMap)
  | finished (confMap : ConfMap)
  | pastEnd

def Parse.step : Parse → Parse
  | reading file confMap =>
    let (mes, more, file) := file.readLine
    if !more then
      finished confMap
    else if mes = [] then
      finished confMap
    else
      match split mes with
      | some (key, value) => reading file (Function.update confMap key (some value))
      | none => pastEnd
  | finished confMap => finished confMap
  | pastEnd => pastEnd

def Parse.steps : Nat → Parse → Parse
  | 0, p => p
  | n + 1, p => steps n p.step

def start (content : List Byte) : Parse := .reading (.ofContent content) fun _ => none

def configRead (confMap : ConfMap) (str : List Byte) : List Byte :=
  match confMap str with
  | none => []
  | some value => value

end LocalMassage
end Fish
