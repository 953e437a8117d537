import FishRpc.Rpc.Impl.SeriBuf
import FishRpc.Rpc.Impl.CppType
import Mathlib.Logic.Function.Iterate

/-!
This module contains `Serializer`, which writes and reads values of all supported types. The
overload of `operator<<` and `operator>>` that C++ picks for a type is the branch of `shl` and `shr`
for that type. The second argument of `shr` is the target before the call. The function templates
`input` and `output` return `false` and do nothing for types that are neither scalars nor strings.
`bytes` is the accessor `buf()`. `shr` is what a read yields that comes to its end; `SerializerChecked`
has what can end it before.
-/

namespace Fish

structure Serializer where
  buf : SeriBuf

namespace Serializer

def new (stack : Stack) : Serializer :=
  { buf := { buf := [], stack := stack } }

def setBuf (s : Serializer) (str : List Byte) : Serializer :=
  { s with buf := { s.buf with buf := str } }

def clear (s : Serializer) : Serializer :=
  { s with buf := s.buf.clear }

def bytes (s : Serializer) : List Byte :=
  s.buf.buf

def inputScalar : (t : Scalar) → t.carrier → SeriBuf → SeriBuf
  | .bool, (t : Bool), buf => buf.inputInt8 (if t then 1#8 else 0#8)
  | .int8, t, buf => buf.inputInt8 t
  | .uint8, t, buf => buf.inputUint8 t
  | .int16, t, buf => buf.inputInt16 t
  | .uint16, t, buf => buf.inputUint16 t
  | .int32, t, buf => buf.inputInt32 t
  | .uint32, t, buf => buf.inputUint32 t
  | .int64, t, buf => buf.inputInt64 t
  | .uint64, t, buf => buf.inputUint64 t
  | .float, t, buf => buf.inputFloat t
  | .double, t, buf => buf.inputDouble t

def outputScalar : (t : Scalar) → SeriBuf → t.carrier × SeriBuf
  | .bool, buf => let (t, buf) := buf.outputInt8; (t != 0#8, buf)
  | .int8, buf => buf.outputInt8
  | .uint8, buf => buf.outputUint8
  | .int16, buf => buf.outputInt16
  | .uint16, buf => buf.outputUint16
  | .int32, buf => buf.outputInt32
  | .uint32, buf => buf.outputUint32
  | .int64, buf => buf.outputInt64
  | .uint64, buf => buf.outputUint64
  | .float, buf => buf.outputFloat
  | .double, buf => buf.outputDouble

def input : (t : CppType .type) → t.carrier → Serializer → Bool × Serializer
  | .scalar t, v, s => (true, { s with buf := inputScalar t v s.buf })
  | .string, v, s => (true, { s with buf := s.buf.inputString v })
  | _, _, s => (false, s)

def output : (t : CppType .type) → t.carrier → Serializer → Bool × t.carrier × Serializer
  | .scalar t, _, s => let (v, buf) := outputScalar t s.buf; (true, v, { s with buf := buf })
  | .string, _, s => let (v, buf) := s.buf.outputString; (true, v, { s with buf := buf })
  | _, v, s => (false, v, s)

-- `input(v.size())`
def inputSize (size : Nat) (s : Serializer) : Serializer :=
  (input (.scalar .uint64) (BitVec.ofNat 64 size) s).2

-- `size_t size; output(size);`
def outputSize (s : Serializer) : Nat × Serializer :=
  let (_, size, s) := output (.scalar .uint64) 0#64 s
  (BitVec.toNat size, s)

-- `operator<<`
def shl : (t : CppType p) → t.carrier → Serializer → Serializer
  | .scalar t, v, s => (input (.scalar t) v s).2
  | .string, v, s => (input .string v s).2
  | .seq _k t, (v : List t.carrier), s =>
    v.foldl (fun s x => shl t x s) (inputSize v.length s)
  | .set _k t, (v : List t.carrier), s =>
    v.foldl (fun s x => shl t x s) (inputSize v.length s)
  | .pair a b, v, s => shl b v.2 (shl a v.1 s)
  | .map _k a b, (v : List (a.carrier × b.carrier)), s =>
    v.foldl (fun s x => shl b x.2 (shl a x.1 s)) (inputSize v.length s)
  | .tuple ts, v, s => shl ts v s
  | .nil, _, s => s
  | .cons t ts, v, s => shl ts v.2 (shl t v.1 s)

-- `v.resize(size)`
def resize (size : Nat) (init : α) (v : List α) : List α :=
  v.take size ++ List.replicate (size - v.length) init

-- `for (size_t i = 0; i < size; ++i) { T t; read(t); store(t); }`
def readLoop (size : Nat) (read : Serializer → α × Serializer) (store : α → β → β)
    (v : β) (s : Serializer) : β × Serializer :=
  (fun (v, s) => let (t, s) := read s; (store t v, s))^[size] (v, s)

-- `operator>>`
def shr (h : Placement) : (t : CppType p) → t.carrier → Serializer → t.carrier × Serializer
  | .scalar t, v, s => (output (.scalar t) v s).2
  | .string, v, s => (output .string v s).2
  | .seq .vector t, (v : List t.carrier), s =>
    let (size, s) := outputSize s
    let v := resize size t.default v
    let store x iv := (iv.1 + 1, iv.2.set iv.1 x)
    let ((_, v), s) := readLoop size (shr h t t.default) store (0, v) s
    (v, s)
  | .seq .list t, (v : List t.carrier), s
  | .seq .deque t, (v : List t.carrier), s =>
    let (size, s) := outputSize s
    let push_back x (v : List t.carrier) := v ++ [x]
    readLoop size (shr h t t.default) push_back v s
  | .set k t, (v : List t.carrier), s =>
    let (size, s) := outputSize s
    -- the elements are read by `output`, not by `operator>>`
    let read s := (output t t.default s).2
    let insert := h.insert k.unique k.ordered t.less t.equal id
    readLoop size read insert v s
  | .pair a b, v, s =>
    let (first, s) := shr h a v.1 s
    let (second, s) := shr h b v.2 s
    ((first, second), s)
  | .map k a b, (v : List (a.carrier × b.carrier)), s =>
    let (size, s) := outputSize s
    let read s :=
      let (first, s) := shr h a a.default s
      let (second, s) := shr h b b.default s
      ((first, second), s)
    let insert := h.insert k.unique k.ordered a.less a.equal Prod.fst
    readLoop size read insert v s
  | .tuple ts, v, s => shr h ts v s
  | .nil, _, s => ((), s)
  | .cons t ts, v, s =>
    let (head, s) := shr h t v.1 s
    let (tail, s) := shr h ts v.2 s
    ((head, tail), s)

end Serializer
end Fish
