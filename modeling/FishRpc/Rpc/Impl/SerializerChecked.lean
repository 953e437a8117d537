import FishRpc.Lib.Noise
import FishRpc.Rpc.Impl.Serializer

/-!
This module contains the reads of `Serializer` together with what can end them early. Copying the
text of a string to `&result[0]` is undefined if it does not fit into `result`, an empty string that
holds `stringRoom` bytes in itself. `std::vector::resize` throws `std::length_error` if it is asked
for more than `max_size()` elements, which is `maxSize t` for a vector of the type `t`. Reads that
come to their end are those of `output` and `shr`.
-/

namespace Fish
namespace SeriBuf

def stringRoom : Nat := 16

def outputStringChecked (s : SeriBuf) : Except Fault (List Byte × SeriBuf) :=
  let (size, s) := s.outputFixed sizeofSizeT
  let result := []
  if stringRoom < min size.toNat s.buf.length then
    .error .undefined
  else
    let (_, s) := s.output result size.toNat
    .ok (result, s)

end SeriBuf

namespace Serializer

def outputChecked : (t : CppType .type) → t.carrier → Serializer →
    Except Fault (Bool × t.carrier × Serializer)
  | .scalar t, v, s => .ok (output (.scalar t) v s)
  | .string, _, s => do
    let (v, buf) ← s.buf.outputStringChecked
    .ok (true, v, { s with buf := buf })
  | t, v, s => .ok (output t v s)

-- the value and what is left, for the places that do not look at the result of `output`
def elementChecked (t : CppType .type) (v : t.carrier) (s : Serializer)
    : Except Fault (t.carrier × Serializer) := do
  let (_, v, s) ← outputChecked t v s
  .ok (v, s)

-- `v.resize(size)`
def resizeChecked (maxSize size : Nat) (init : α) (v : List α) : Except Fault (List α) :=
  if maxSize < size then .error .thrown else .ok (resize size init v)

-- `for (size_t i = 0; i < size; ++i) { T t; read(t); store(t); }`
def readLoopChecked (read : Serializer → Except Fault (α × Serializer)) (store : α → β → β)
    : Nat → β → Serializer → Except Fault (β × Serializer)
  | 0, v, s => .ok (v, s)
  | size + 1, v, s => do
    let (t, s) ← read s
    readLoopChecked read store size (store t v) s

def pairChecked {α β : Type} (readA : Serializer → Except Fault (α × Serializer))
    (readB : Serializer → Except Fault (β × Serializer)) (s : Serializer)
    : Except Fault ((α × β) × Serializer) := do
  let (first, s) ← readA s
  let (second, s) ← readB s
  .ok ((first, second), s)

-- `operator>>`
def shrChecked (h : Placement) (maxSize : CppType .type → Nat)
    : (t : CppType p) → t.carrier → Serializer → Except Fault (t.carrier × Serializer)
  | .scalar t, v, s => elementChecked (.scalar t) v s
  | .string, v, s => elementChecked .string v s
  | .seq .vector t, (v : List t.carrier), s => do
    let (size, s) := outputSize s
    let v ← resizeChecked (maxSize t) size t.default v
    let store x iv := (iv.1 + 1, iv.2.set iv.1 x)
    let ((_, v), s) ← readLoopChecked (shrChecked h maxSize t t.default) store size (0, v) s
    .ok (v, s)
  | .seq .list t, (v : List t.carrier), s
  | .seq .deque t, (v : List t.carrier), s =>
    let (size, s) := outputSize s
    let push_back x (v : List t.carrier) := v ++ [x]
    readLoopChecked (shrChecked h maxSize t t.default) push_back size v s
  | .set k t, (v : List t.carrier), s =>
    let (size, s) := outputSize s
    -- the elements are read by `output`, not by `operator>>`
    let insert := h.insert k.unique k.ordered t.less t.equal id
    readLoopChecked (elementChecked t t.default) insert size v s
  | .pair a b, v, s => pairChecked (shrChecked h maxSize a v.1) (shrChecked h maxSize b v.2) s
  | .map k a b, (v : List (a.carrier × b.carrier)), s =>
    let (size, s) := outputSize s
    let read := pairChecked (shrChecked h maxSize a a.default) (shrChecked h maxSize b b.default)
    let insert := h.insert k.unique k.ordered a.less a.equal Prod.fst
    readLoopChecked read insert size v s
  | .tuple ts, v, s => shrChecked h maxSize ts v s
  | .nil, _, s => .ok ((), s)
  | .cons t ts, v, s => pairChecked (shrChecked h maxSize t v.1) (shrChecked h maxSize ts v.2) s

end Serializer
end Fish
