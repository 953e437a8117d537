import FishRpc.Lib.LittleEndian
import FishRpc.Lib.SizeT

/-!
This module contains `Protocol`, one message of the wire format together with the state machine
`create` that assembles it from received bytes. `HeadMsg` is the union `headMsg` seen through
`msgStr`: its struct `Msg` has `msgType_` at offset 4, `sFormat_` at 6, one byte of padding,
`msgId_` at 8 and `contentLength_` at 12. `Memory` holds the bytes that `create` and `result` see
where they leave the view or `msgStr`. What they write behind `msgStr` is dropped.
-/

namespace Fish

open LittleEndian

structure HeadMsg where
  msgStr : Fin 16 → Byte

namespace HeadMsg

def bytes (m : HeadMsg) (off n : Nat) : List Byte :=
  ((List.ofFn m.msgStr).drop off).take n

def field (m : HeadMsg) (off n : Nat) : BitVec (8 * n) :=
  BitVec.ofNat (8 * n) (ofBytes (m.bytes off n))

def overwrite (m : HeadMsg) (off n : Nat) (src : Nat → Byte) : HeadMsg where
  msgStr i := if off ≤ i.val ∧ i.val < off + n then src (i.val - off) else m.msgStr i

def setField (m : HeadMsg) (off n : Nat) (v : BitVec (8 * n)) : HeadMsg :=
  m.overwrite off n fun i => (toBytes n v.toNat).getD i 0

end HeadMsg

structure Memory where
  past : Nat → Byte
  around : Int → Byte

inductive RpcState where
  | working
  | free
  | ready
  | waitContent
  | lack
  deriving DecidableEq

inductive MsgType where
  | nonsence
  | hbeat
  | provider
  | consumer
  | prequest
  | crequest
  | presponse
  | cresponse
  | methodPrequest
  | methodPresponse
  | methodCrequest
  | methodCresponse

def MsgType.toNat : MsgType → Nat
  | nonsence => 0
  | hbeat => 1
  | provider => 2
  | consumer => 3
  | prequest => 4
  | crequest => 5
  | presponse => 6
  | cresponse => 7
  | methodPrequest => 8
  | methodPresponse => 9
  | methodCrequest => 10
  | methodCresponse => 11

structure Protocol where
  msg : HeadMsg
  content : List Byte
  handleState : RpcState

namespace Protocol

def dfMagic : BitVec 8 := 0xcc
def dfVersion : BitVec 8 := 1
def dfHeadLength : BitVec 8 := 15

def getMagic (p : Protocol) : BitVec 8 := p.msg.field 0 1
def totalLength (p : Protocol) : BitVec 8 := p.msg.field 1 1
def headLength (p : Protocol) : BitVec 8 := p.msg.field 2 1
def getVersion (p : Protocol) : BitVec 8 := p.msg.field 3 1
def getType (p : Protocol) : BitVec 16 := p.msg.field 4 2
def getSFormat (p : Protocol) : BitVec 8 := p.msg.field 6 1
def getId (p : Protocol) : BitVec 32 := p.msg.field 8 4
def contentLength (p : Protocol) : BitVec 32 := p.msg.field 12 4
def getState (p : Protocol) : RpcState := p.handleState
def getContent (p : Protocol) : List Byte := p.content

def setField (off n : Nat) (p : Protocol) (v : BitVec (8 * n)) : Protocol :=
  { p with msg := p.msg.setField off n v }

def setMagic : Protocol → BitVec 8 → Protocol := setField 0 1
def setTotalLength : Protocol → BitVec 8 → Protocol := setField 1 1
def setHeadLength : Protocol → BitVec 8 → Protocol := setField 2 1
def setVersion : Protocol → BitVec 8 → Protocol := setField 3 1
def setMsgType : Protocol → BitVec 16 → Protocol := setField 4 2
def setSFormat : Protocol → BitVec 8 → Protocol := setField 6 1
def setMsgId : Protocol → BitVec 32 → Protocol := setField 8 4
def setContentLength : Protocol → BitVec 32 → Protocol := setField 12 4

def setContent (p : Protocol) (content : List Byte) : Protocol :=
  let p := p.setContentLength (p.contentLength + BitVec.ofNat 32 content.length)
  { p with content := content }

-- `raw` is what the memory of the object holds before its constructor runs
def new (raw : HeadMsg) : Protocol :=
  let p := { msg := raw, content := [], handleState := .free : Protocol }
  let p := p.setMagic dfMagic
  let p := p.setTotalLength dfHeadLength
  let p := p.setHeadLength dfHeadLength
  let p := p.setVersion dfVersion
  p.setSFormat 1

def msgStrAt (p : Protocol) (mem : Memory) (i : Int) : Byte :=
  if h : 0 ≤ i ∧ i < 16 then p.msg.msgStr ⟨i.toNat, by omega⟩ else mem.around i

def copyHead (p : Protocol) (view : List Byte) (mem : Memory) : Protocol :=
  let data := fun i => view.getD i (mem.past (i - view.length))
  { p with msg := p.msg.overwrite 0 p.totalLength.toNat data }

def createFree (p : Protocol) (view : List Byte) (mem : Memory) : Int × Protocol :=
  match view.findIdx? (· = dfMagic) with
  | none => (-1, p)
  | some idx =>
    let view := view.drop idx
    let p := p.copyHead view mem
    if view.length < p.totalLength.toNat then
      (sizeToInt (-1 * idx), { p with handleState := .lack })
    else
      -- falls through to `case LACK` and leaves the switch
      (sizeToInt (idx + p.totalLength.toNat), { p with handleState := .waitContent })

-- `char` is signed and '0' is 48
def announced (p : Protocol) (mem : Memory) : Int :=
  let start : Int := p.totalLength.toNat - 4
  (List.range 4).foldl (fun cl (k : Nat) => cl * 10 + ((p.msgStrAt mem (start + k)).toInt - 48)) 0

def createWaitContent (p : Protocol) (view : List Byte) (mem : Memory) : Int × Protocol :=
  let p := p.setContentLength (BitVec.ofInt 32 (p.announced mem))
  if view.length + p.content.length < p.contentLength.toNat then
    (0, { p with content := p.content ++ view, handleState := .lack })
  else
    let thisContent := view.take (subSize p.contentLength.toNat p.content.length)
    let p := { p with content := p.content ++ thisContent, handleState := .ready }
    -- `content_` has already grown when the bytes read are counted
    (sizeToInt (subSize p.contentLength.toNat p.content.length), p)

def create (p : Protocol) (view : List Byte) (mem : Memory) : Int × Protocol :=
  if view.length < dfHeadLength.toNat then
    (-1, p)
  else
    match p.handleState with
    | .free => p.createFree view mem
    | .waitContent => p.createWaitContent view mem
    | .lack => (0, p)
    | .ready => (0, p)
    | .working => (0, p)

def result (p : Protocol) (mem : Memory) : List Byte :=
  (List.range p.totalLength.toNat).map (fun (i : Nat) => p.msgStrAt mem i) ++ p.content

end Protocol
end Fish
