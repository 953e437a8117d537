import FishRpc.Rpc.Impl.Serializer
import Mathlib.Logic.Function.Basic

/-!
This module contains the method table of `RpcProvider`. A `Method` is a function object together
with its signature, `params` is the `tuple_type` of its `function_traits`. The table maps a name to
nothing, to an empty `std::function` or to a method. Running a method also returns the calls of
function objects that it has made.
-/

namespace Fish

def returnCarrier : Option (CppType .type) → Type
  | none => Unit
  | some t => t.carrier

structure Method where
  params : CppType .pack
  returnType : Option (CppType .type)
  function : params.carrier → returnCarrier returnType

structure Invocation where
  method : Method
  args : method.params.carrier

inductive RunError where
  | badFunctionCall

structure RpcProvider where
  methods : String → Option (Option Method)

namespace RpcProvider

def new : RpcProvider :=
  { methods := fun _ => none }

def registerMethod (p : RpcProvider) (name : String) (func : Method) : RpcProvider :=
  { p with methods := Function.update p.methods name (some (some func)) }

def runMethod (h : Placement) (function : Method) (arg ret : Serializer)
    : List Invocation × Serializer × Serializer :=
  let (args, arg) := Serializer.shr h (.tuple function.params) function.params.default arg
  match function, args with
  | ⟨params, none, function⟩, args => ([⟨⟨params, none, function⟩, args⟩], arg, ret)
  | ⟨params, some returnType, function⟩, args =>
    let rt := function args
    ([⟨⟨params, some returnType, function⟩, args⟩], arg, Serializer.shl returnType rt ret)

def run (h : Placement) (p : RpcProvider) (name : String) (arg ret : Serializer)
    : RpcProvider × Except RunError (List Invocation × Serializer × Serializer) :=
  -- `methods_[name]` inserts an empty function if there is no entry yet
  let fn := (p.methods name).getD none
  let p := { p with methods := Function.update p.methods name (some fn) }
  match fn with
  | none => (p, .error .badFunctionCall)
  | some function => (p, .ok (runMethod h function arg ret))

end RpcProvider
end Fish
