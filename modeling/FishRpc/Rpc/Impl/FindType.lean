import FishRpc.Rpc.Impl.CppType

/-!
This module contains `findType`, which lists the type ids of a C++ type. `findtype` is zero for
types that have no id; `findType` throws for them. An object of the type is only needed for its type
and is left out.
-/

namespace Fish

inductive TypeId where
  | vector | list | deque | set | multiset | unorderedSet | unorderedMultiset
  | pair | map | multimap | unorderedMap | unorderedMultimap
  | tuple
  | int8 | int16 | int32 | int64 | uint8 | uint16 | uint32 | uint64
  | float | double
  | string
  deriving DecidableEq, Repr

namespace TypeId

def value : TypeId → Byte
  | vector => 1 | list => 2 | deque => 3
  | set => 4 | multiset => 5 | unorderedSet => 6 | unorderedMultiset => 7
  | pair => 8
  | map => 9 | multimap => 10 | unorderedMap => 11 | unorderedMultimap => 12
  | tuple => 13
  | int8 => 64 | int16 => 65 | int32 => 66 | int64 => 67
  | uint8 => 68 | uint16 => 69 | uint32 => 70 | uint64 => 71
  | float => 72 | double => 73
  | string => 74

end TypeId

def findtype : CppType .type → Byte
  | .scalar .bool => 0
  | .scalar .int8 => TypeId.int8.value
  | .scalar .int16 => TypeId.int16.value
  | .scalar .int32 => TypeId.int32.value
  | .scalar .int64 => TypeId.int64.value
  | .scalar .uint8 => TypeId.uint8.value
  | .scalar .uint16 => TypeId.uint16.value
  | .scalar .uint32 => TypeId.uint32.value
  | .scalar .uint64 => TypeId.uint64.value
  | .scalar .float => TypeId.float.value
  | .scalar .double => TypeId.double.value
  | .string => TypeId.string.value
  | .seq .vector _ => TypeId.vector.value
  | .seq .list _ => TypeId.list.value
  | .seq .deque _ => TypeId.deque.value
  | .set .set _ => TypeId.set.value
  | .set .multiset _ => TypeId.multiset.value
  | .set .unorderedSet _ => TypeId.unorderedSet.value
  | .set .unorderedMultiset _ => TypeId.unorderedMultiset.value
  | .pair _ _ => TypeId.pair.value
  | .map .map _ _ => TypeId.map.value
  | .map .multimap _ _ => TypeId.multimap.value
  | .map .unorderedMap _ _ => TypeId.unorderedMap.value
  | .map .unorderedMultimap _ _ => TypeId.unorderedMultimap.value
  | .tuple _ => TypeId.tuple.value

def findType : CppType p → List Byte → Option (List Byte)
  | .scalar s, paraMes =>
    if findtype (.scalar s) = 0 then none else some (paraMes ++ [findtype (.scalar s)])
  | .string, paraMes => some (paraMes ++ [findtype .string])
  | .seq k t, paraMes => findType t (paraMes ++ [findtype (.seq k t)])
  | .set k t, paraMes => findType t (paraMes ++ [findtype (.set k t)])
  -- `value` is declared with `key_type`, so the type of the second parameter is not looked at
  | .pair a b, paraMes => do
    let paraMes ← findType a (paraMes ++ [findtype (.pair a b)])
    findType a paraMes
  | .map k a b, paraMes => do
    let paraMes ← findType a (paraMes ++ [findtype (.map k a b)])
    findType a paraMes
  -- the id lies between those of the maps and those of the simple types, where no branch applies
  | .tuple _, paraMes => some paraMes
  -- the parameters of a tuple are not a type by themselves
  | .nil, paraMes | .cons _ _, paraMes => some paraMes

end Fish
