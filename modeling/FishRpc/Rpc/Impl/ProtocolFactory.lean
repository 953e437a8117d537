import FishRpc.Rpc.Impl.Protocol

/-!
This module contains the part of `Protocol` that makes messages: the functions that work on the two
lengths of the header and the factories `hbCreate`, `pvdCreat` and `csmCreate`. A factory has one
object of static storage and returns a pointer to it, so `Statics` is what all packets of a factory
look like at the same time.
-/

namespace Fish

open LittleEndian

namespace Protocol

def getLength (p : Protocol) : BitVec 32 := p.headLength.setWidth 32

def getAppendLength (p : Protocol) : BitVec 32 :=
  p.totalLength.setWidth 32 - p.headLength.setWidth 32

def setAppendLength (p : Protocol) (adLength : BitVec 32) : Protocol :=
  p.setTotalLength ((adLength + p.headLength.setWidth 32).setWidth 8)

def setLength (p : Protocol) (length : BitVec 32) : Protocol :=
  let p := p.setTotalLength
    ((p.totalLength.setWidth 32 + (length - p.headLength.setWidth 32)).setWidth 8)
  -- the field is unsigned, as an `int` it is never negative
  let p := if (p.totalLength.toNat : Int) < 0 then p.setTotalLength 0 else p
  p.setHeadLength (length.setWidth 8)

def setHeadMsg (p : Protocol) (type : MsgType) (id : BitVec 32) : Protocol :=
  (p.setMsgType (BitVec.ofNat 16 type.toNat)).setMsgId id

-- `now` is the count of microseconds that the clock returns
def gettime (now : BitVec 64) : List Byte := toBytes 8 now.toNat

-- the public setters
inductive Setter where
  | magic (magic : BitVec 8)
  | appendLength (adLength : BitVec 32)
  | version (version : BitVec 8)
  | msgType (msgType : BitVec 16)
  | sFormat (format : BitVec 8)
  | msgId (id : BitVec 32)
  | content (content : List Byte)
  | length (length : BitVec 32)

def set (p : Protocol) : Setter → Protocol
  | .magic magic => p.setMagic magic
  | .appendLength adLength => p.setAppendLength adLength
  | .version version => p.setVersion version
  | .msgType msgType => p.setMsgType msgType
  | .sFormat format => p.setSFormat format
  | .msgId id => p.setMsgId id
  | .content content => p.setContent content
  | .length length => p.setLength length

inductive Factory where
  | heartBeat
  | provider
  | cusmer
  deriving DecidableEq

-- the static objects, each is made when its factory is called for the first time
structure Statics where
  object : Factory → Option Protocol

namespace Statics

def init : Statics where
  object _ := none

-- `raw` is the memory that the object is made in if it is not there yet
def packet (s : Statics) (f : Factory) (type : MsgType) (raw : HeadMsg) (id : BitVec 32)
    (now : BitVec 64) : Statics :=
  let p := (s.object f).getD (.new raw)
  let p := p.setHeadMsg type id
  let p := p.setContent (gettime now)
  { s with object := fun f' => if f' = f then some p else s.object f' }

def hbCreate (s : Statics) : HeadMsg → BitVec 32 → BitVec 64 → Statics :=
  s.packet .heartBeat .hbeat

def pvdCreat (s : Statics) : HeadMsg → BitVec 32 → BitVec 64 → Statics :=
  s.packet .provider .provider

def csmCreate (s : Statics) : HeadMsg → BitVec 32 → BitVec 64 → Statics :=
  s.packet .cusmer .consumer

def create (s : Statics) : Factory → HeadMsg → BitVec 32 → BitVec 64 → Statics
  | .heartBeat => s.hbCreate
  | .provider => s.pvdCreat
  | .cusmer => s.csmCreate

end Statics
end Protocol
end Fish
