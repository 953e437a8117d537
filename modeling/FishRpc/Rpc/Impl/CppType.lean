import FishRpc.Lib.LittleEndian
import FishRpc.Lib.Sorted

/-!
This module contains the C++ types that `Serializer` is instantiated with, the objects of these
types and the standard library operations on them that the serializer relies on.

A container is the list of its elements in iteration order. `Wf` describes the objects that a
program can hold: sizes fit into `size_t` and the associative containers keep their elements
arranged. `Same` is equality of objects, for which unordered containers are the same if their
elements are, in whatever order. Floating point values are carried around as their bit patterns.

`keyable` types are those whose `operator<` is a strict total order: no floating point number (it
could be NaN) and no unordered container (it has none) takes part in it. `stringFree` types are
scalars under sequences, pairs, tuples and maps with keyable keys, and sets of integers or booleans.
There is no `std::vector<bool>` among them, its elements cannot be bound to the `auto &` of the
serializer.

`Placement` is the iteration order of unordered containers, which the standard leaves open: an
inserted element may go anywhere and the others may be rearranged.
-/

namespace Fish

inductive Scalar where
  | bool
  | int8 | uint8 | int16 | uint16 | int32 | uint32 | int64 | uint64
  | float | double
  deriving DecidableEq, Repr

inductive SeqKind where
  | list | vector | deque
  deriving DecidableEq, Repr

inductive SetKind where
  | set | multiset | unorderedSet | unorderedMultiset
  deriving DecidableEq, Repr

inductive MapKind where
  | map | multimap | unorderedMap | unorderedMultimap
  deriving DecidableEq, Repr

inductive Param where
  | type | pack

inductive CppType : Param → Type where
  | scalar (s : Scalar) : CppType .type
  | string : CppType .type
  | seq (k : SeqKind) (elem : CppType .type) : CppType .type
  | set (k : SetKind) (elem : CppType .type) : CppType .type
  | pair (first second : CppType .type) : CppType .type
  | map (k : MapKind) (key value : CppType .type) : CppType .type
  | tuple (elems : CppType .pack) : CppType .type
  | nil : CppType .pack
  | cons (head : CppType .type) (tail : CppType .pack) : CppType .pack
  deriving DecidableEq

namespace Scalar

def carrier : Scalar → Type
  | bool => Bool
  | int8 | uint8 => BitVec 8
  | int16 | uint16 => BitVec 16
  | int32 | uint32 | float => BitVec 32
  | int64 | uint64 | double => BitVec 64

def default : (s : Scalar) → s.carrier
  | bool => false
  | int8 | uint8 => 0#8
  | int16 | uint16 => 0#16
  | int32 | uint32 | float => 0#32
  | int64 | uint64 | double => 0#64

def isFloat : Scalar → Bool
  | float | double => true
  | _ => false

end Scalar

-- IEEE 754 bit patterns with `m` mantissa bits
def isNaN (m : Nat) (x : BitVec w) : Bool :=
  2 ^ (w - 1) - 2 ^ m < x.toNat % 2 ^ (w - 1)

def floatRank (x : BitVec w) : Int :=
  if x.msb then -((x.toNat % 2 ^ (w - 1) : Nat) : Int) else x.toNat

def floatLess (m : Nat) (x y : BitVec w) : Bool :=
  !isNaN m x && !isNaN m y && floatRank x < floatRank y

def floatEqual (m : Nat) (x y : BitVec w) : Bool :=
  !isNaN m x && !isNaN m y && floatRank x == floatRank y

namespace Scalar

def less : (s : Scalar) → s.carrier → s.carrier → Bool
  | bool, (a : Bool), (b : Bool) => !a && b
  | int8, (a : BitVec 8), b => a.slt b
  | uint8, (a : BitVec 8), b => a.ult b
  | int16, (a : BitVec 16), b => a.slt b
  | uint16, (a : BitVec 16), b => a.ult b
  | int32, (a : BitVec 32), b => a.slt b
  | uint32, (a : BitVec 32), b => a.ult b
  | int64, (a : BitVec 64), b => a.slt b
  | uint64, (a : BitVec 64), b => a.ult b
  | float, (a : BitVec 32), b => floatLess 23 a b
  | double, (a : BitVec 64), b => floatLess 52 a b

def equal : (s : Scalar) → s.carrier → s.carrier → Bool
  | bool, (a : Bool), b => a == b
  | int8, (a : BitVec 8), b | uint8, (a : BitVec 8), b => a == b
  | int16, (a : BitVec 16), b | uint16, (a : BitVec 16), b => a == b
  | int32, (a : BitVec 32), b | uint32, (a : BitVec 32), b => a == b
  | int64, (a : BitVec 64), b | uint64, (a : BitVec 64), b => a == b
  | float, (a : BitVec 32), b => floatEqual 23 a b
  | double, (a : BitVec 64), b => floatEqual 52 a b

end Scalar

def SetKind.unique : SetKind → Bool
  | set | unorderedSet => true
  | multiset | unorderedMultiset => false

def SetKind.ordered : SetKind → Bool
  | set | multiset => true
  | unorderedSet | unorderedMultiset => false

def MapKind.unique : MapKind → Bool
  | map | unorderedMap => true
  | multimap | unorderedMultimap => false

def MapKind.ordered : MapKind → Bool
  | map | multimap => true
  | unorderedMap | unorderedMultimap => false

namespace CppType

def carrier : CppType p → Type
  | scalar s => s.carrier
  | string => List Byte
  | seq _ t => List t.carrier
  | set _ t => List t.carrier
  | pair a b => a.carrier × b.carrier
  | map _ a b => List (a.carrier × b.carrier)
  | tuple ts => ts.carrier
  | nil => Unit
  | cons t ts => t.carrier × ts.carrier

-- value initialisation; a local `T t` of scalar type is assigned before it is used
def default : (t : CppType p) → t.carrier
  | scalar s => s.default
  | string | seq _ _ | set _ _ | map _ _ _ => []
  | pair a b => (a.default, b.default)
  | tuple ts => ts.default
  | nil => ()
  | cons t ts => (t.default, ts.default)

-- `operator<`, it is never asked for with an unordered container
def less : (t : CppType p) → t.carrier → t.carrier → Bool
  | scalar s => s.less
  | string => listLess BitVec.ult
  | seq _ t => listLess t.less
  | set _ t => listLess t.less
  | pair a b => pairLess a.less b.less
  | map _ a b => listLess (pairLess a.less b.less)
  | tuple ts => ts.less
  | nil => fun _ _ => false
  | cons t ts => pairLess t.less ts.less

-- `operator==`, which the unordered containers compare their keys with
def equal : (t : CppType p) → t.carrier → t.carrier → Bool
  | scalar s => s.equal
  | string => fun (x y : List Byte) => x == y
  | seq _ t => listEqual t.equal
  | set _ t => listEqual t.equal
  | pair a b => fun x y => a.equal x.1 y.1 && b.equal x.2 y.2
  | map _ a b => listEqual fun x y => a.equal x.1 y.1 && b.equal x.2 y.2
  | tuple ts => ts.equal
  | nil => fun _ _ => true
  | cons t ts => fun x y => t.equal x.1 y.1 && ts.equal x.2 y.2
where
  listEqual {α : Type} (eq : α → α → Bool) : List α → List α → Bool
    | [], [] => true
    | x :: xs, y :: ys => eq x y && listEqual eq xs ys
    | _, _ => false

def keyable : CppType p → Bool
  | scalar s => !s.isFloat
  | string => true
  | seq _ t => t.keyable
  | set k t => k.ordered && t.keyable
  | pair a b => a.keyable && b.keyable
  | map k a b => k.ordered && a.keyable && b.keyable
  | tuple ts => ts.keyable
  | nil => true
  | cons t ts => t.keyable && ts.keyable

-- no unordered container takes part in the order
def comparable : CppType p → Bool
  | scalar _ => true
  | string => true
  | seq _ t => t.comparable
  | set k t => k.ordered && t.comparable
  | pair a b => a.comparable && b.comparable
  | map k a b => k.ordered && a.comparable && b.comparable
  | tuple ts => ts.comparable
  | nil => true
  | cons t ts => t.comparable && ts.comparable

def stringFree : CppType p → Bool
  | scalar _ => true
  | string => false
  | seq .vector (scalar .bool) => false
  | seq _ t => t.stringFree
  | set _ (scalar s) => !s.isFloat
  | set _ _ => false
  | pair a b => a.stringFree && b.stringFree
  | map _ a b => a.keyable && a.stringFree && b.stringFree
  | tuple ts => ts.stringFree
  | nil => true
  | cons t ts => t.stringFree && ts.stringFree

def Arranged (unique ordered : Bool) (less equal : κ → κ → Bool) (key : α → κ) (l : List α)
    : Prop :=
  match ordered, unique with
  | true, true => l.Pairwise fun x y => less (key x) (key y) = true
  | true, false => l.Pairwise fun x y => less (key y) (key x) = false
  | false, true => l.Pairwise fun x y => equal (key x) (key y) = false
  | false, false => True

def Wf : (t : CppType p) → t.carrier → Prop
  | scalar _, _ => True
  | string, (v : List Byte) => v.length < 2 ^ 64
  | seq _k t, (v : List t.carrier) => v.length < 2 ^ 64 ∧ ∀ x ∈ v, t.Wf x
  | set k t, (v : List t.carrier) =>
    v.length < 2 ^ 64 ∧ (∀ x ∈ v, t.Wf x) ∧ Arranged k.unique k.ordered t.less t.equal id v
  | pair a b, v => a.Wf v.1 ∧ b.Wf v.2
  | map k a b, (v : List (a.carrier × b.carrier)) =>
    v.length < 2 ^ 64 ∧ (∀ x ∈ v, a.Wf x.1 ∧ b.Wf x.2) ∧
      Arranged k.unique k.ordered a.less a.equal Prod.fst v
  | tuple ts, v => ts.Wf v
  | nil, _ => True
  | cons t ts, v => t.Wf v.1 ∧ ts.Wf v.2

def Value (t : CppType p) : Type :=
  { v : t.carrier // t.Wf v }

def Same : (t : CppType p) → t.carrier → t.carrier → Prop
  | scalar _, v, w => v = w
  | string, v, w => v = w
  | seq _ t, v, w => List.Forall₂ t.Same v w
  | set k t, v, w => sameElements k.ordered t.Same v w
  | pair a b, v, w => a.Same v.1 w.1 ∧ b.Same v.2 w.2
  | map k a b, v, w => sameElements k.ordered (fun x y => a.Same x.1 y.1 ∧ b.Same x.2 y.2) v w
  | tuple ts, v, w => ts.Same v w
  | nil, _, _ => True
  | cons t ts, v, w => t.Same v.1 w.1 ∧ ts.Same v.2 w.2
where
  sameElements {α : Type} (ordered : Bool) (same : α → α → Prop) (v w : List α) : Prop :=
    if ordered then
      List.Forall₂ same v w
    else
      ∃ u, List.Forall₂ same v u ∧ u.Perm w

end CppType

structure Placement where
  place : {α : Type} → α → List α → List α
  perm : ∀ {α : Type} (x : α) (l : List α), (place x l).Perm (x :: l)

namespace Placement

def front : Placement where
  place := List.cons
  perm x l := List.Perm.refl (x :: l)

def insert (h : Placement) (unique ordered : Bool) (less equal : κ → κ → Bool) (key : α → κ) (x : α)
    (l : List α) : List α :=
  match ordered, unique with
  | true, true => insertUnique less key x l
  | true, false => insertMulti less key x l
  | false, true => if l.any fun y => equal (key y) (key x) then l else h.place x l
  | false, false => h.place x l

end Placement
end Fish
