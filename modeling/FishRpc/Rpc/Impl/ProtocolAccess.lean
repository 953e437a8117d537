import FishRpc.Rpc.Impl.Protocol

/-!
This module contains the places that `create` reads and indexes, branch by branch as in `create`
itself: bytes by their index in the view and positions of the array `msgStr`.
-/

namespace Fish
namespace Protocol

inductive Access where
  | view (i : Nat)
  | msgStr (i : Int)
  deriving DecidableEq

def viewAccesses (n : Nat) : List Access :=
  (List.range n).map .view

-- `std::copy` of the header out of the view and into `msgStr`
def copyAccesses (p : Protocol) (idx : Nat) : List Access :=
  (List.range p.totalLength.toNat).flatMap fun (i : Nat) => [.view (idx + i), .msgStr i]

def freeAccesses (p : Protocol) (view : List Byte) : List Access :=
  match view.findIdx? (· = dfMagic) with
  | none => viewAccesses view.length
  | some idx => viewAccesses (idx + 1) ++ p.copyAccesses idx

def announcedAccesses (p : Protocol) : List Access :=
  (List.range 4).map fun (k : Nat) => .msgStr ((p.totalLength.toNat : Int) - 4 + k)

def waitContentAccesses (p : Protocol) (view : List Byte) (mem : Memory) : List Access :=
  let length := (BitVec.ofInt 32 (p.announced mem)).toNat
  if view.length + p.content.length < length then
    p.announcedAccesses ++ viewAccesses view.length
  else
    p.announcedAccesses ++ viewAccesses (min (subSize length p.content.length) view.length)

def accesses (p : Protocol) (view : List Byte) (mem : Memory) : List Access :=
  if view.length < dfHeadLength.toNat then
    []
  else
    match p.handleState with
    | .free => p.freeAccesses view
    | .waitContent => p.waitContentAccesses view mem
    | .lack => []
    | .ready => []
    | .working => []

-- `create` together with the record of its accesses, each with the size of the view
structure Watched where
  protocol : Protocol
  accesses : List (Nat × Access)

def Watched.create (s : Watched) (call : List Byte × Memory) : Watched where
  protocol := (s.protocol.create call.1 call.2).2
  accesses :=
    s.accesses ++ (s.protocol.accesses call.1 call.2).map fun access => (call.1.length, access)

def watch (raw : HeadMsg) (calls : List (List Byte × Memory)) : Watched :=
  calls.foldl Watched.create ⟨.new raw, []⟩

end Protocol
end Fish
