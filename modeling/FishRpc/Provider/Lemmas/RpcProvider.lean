import FishRpc.Provider.Impl.RpcProvider
import FishRpc.Rpc.Lemmas.Serializer
import Mathlib.Data.List.Induction

/-!
This module contains the correctness of `RpcProvider::run` for every history of registrations: the
method that was registered last under a name is called with the arguments that the caller wrote.
-/

namespace Fish

def encodeReturn : (t : Option (CppType .type)) → returnCarrier t → List Byte
  | none, _ => []
  | some t, v => Serializer.encode t v

def arguments : (ts : CppType p) → ts.carrier → List (Sigma (@CppType.carrier .type))
  | .cons t ts, v => ⟨t, v.1⟩ :: arguments ts v.2
  | _, _ => []

-- what a caller does with the arguments of a call
def writeArgs (ts : CppType .pack) (v : ts.carrier) (s : Serializer) : Serializer :=
  (arguments ts v).foldl (fun s a => Serializer.shl a.1 a.2 s) s

theorem writeArgs_bytes (ts : CppType .pack) (v : ts.carrier) (s : Serializer)
    : (writeArgs ts v s).bytes = s.bytes ++ Serializer.encode (.tuple ts) v := by
  match ts with
  | .nil => simp [writeArgs, arguments, Serializer.encode]
  | .cons t ts =>
    have htail := writeArgs_bytes ts v.2 (Serializer.shl t v.1 s)
    rw [Serializer.shl_bytes] at htail
    simpa [writeArgs, arguments, Serializer.encode] using htail

namespace RpcProvider

def registerAll (p : RpcProvider) (regs : List (String × Method)) : RpcProvider :=
  regs.foldl (fun p reg => p.registerMethod reg.1 reg.2) p

def lastRegistered (regs : List (String × Method)) (name : String) : Option Method :=
  (regs.reverse.find? fun reg => reg.1 = name).map Prod.snd

theorem registerAll_concat (p : RpcProvider) (regs : List (String × Method)) (reg : String × Method)
    : registerAll p (regs ++ [reg]) = (registerAll p regs).registerMethod reg.1 reg.2 := by
  simp [registerAll]

theorem registerMethod_methods_self (p : RpcProvider) (name : String) (func : Method)
    : (p.registerMethod name func).methods name = some (some func) := by
  simp [registerMethod]

theorem registerMethod_methods_of_ne (p : RpcProvider) {name name' : String} (func : Method)
    (hname : name' ≠ name) : (p.registerMethod name func).methods name' = p.methods name' := by
  simp [registerMethod, hname]

theorem lastRegistered_concat (regs : List (String × Method)) (reg : String × Method)
    (name : String)
    : lastRegistered (regs ++ [reg]) name
        =
      if reg.1 = name then some reg.2 else lastRegistered regs name := by
  unfold lastRegistered
  rw [List.reverse_concat]
  by_cases hname : reg.1 = name
  . simp [hname]
  . simp [List.find?_cons_of_neg, hname]

theorem registerAll_methods (regs : List (String × Method)) (name : String)
    : (registerAll new regs).methods name = (lastRegistered regs name).map some := by
  induction regs using List.reverseRecOn with
  | nil => rfl
  | append_singleton regs reg ih =>
    rw [registerAll_concat]
    rw [lastRegistered_concat]
    by_cases hname : reg.1 = name
    . rw [if_pos hname]
      rw [← hname]
      apply registerMethod_methods_self _ _ _
    . rw [if_neg hname]
      rw [registerMethod_methods_of_ne _ _ (Ne.symm hname)]
      exact ih

theorem runMethod_args (h : Placement) (m : Method) (hfree : m.params.stringFree = true)
    (args : m.params.carrier) (hwf : m.params.Wf args) (arg ret : Serializer) (rest : List Byte)
    (harg : arg.bytes = Serializer.encode (.tuple m.params) args ++ rest)
    : ∃ args' arg' ret',
        runMethod h m arg ret = ([⟨m, args'⟩], arg', ret') ∧
        m.params.Same args args' ∧
        arg'.bytes = rest ∧
        ret'.bytes = ret.bytes ++ encodeReturn m.returnType (m.function args') := by
  have hread := Serializer.shr_reads h (.tuple m.params) hfree args hwf arg rest harg
  rcases m with ⟨params, returnType, function⟩
  cases returnType with
  | none => exact ⟨_, _, ret, rfl, hread.1, hread.2, by simp [encodeReturn]⟩
  | some t => exact ⟨_, _, _, rfl, hread.1, hread.2, Serializer.shl_bytes t _ ret⟩

theorem run_of_methods (h : Placement) (p : RpcProvider) (name : String) (m : Method)
    (hmethod : p.methods name = some (some m)) (arg ret : Serializer)
    : p.run h name arg ret = (p, .ok (runMethod h m arg ret)) := by
  unfold run
  simp only [hmethod, Option.getD_some]
  rw [← hmethod]
  rw [Function.update_eq_self]

/--
After any registrations, running a name calls the method registered last under it once, with the
arguments written by the caller, and takes exactly these off `arg`.
-/
theorem run_calls_lastRegistered (h : Placement) (regs : List (String × Method)) (name : String)
    (m : Method) (hlast : lastRegistered regs name = some m) (hfree : m.params.stringFree = true)
    (args : m.params.carrier) (hwf : m.params.Wf args) (stack : Stack) (arg ret : Serializer)
    (rest : List Byte)
    (harg : arg.bytes = (writeArgs m.params args (Serializer.new stack)).bytes ++ rest)
    : ∃ args' arg' ret',
        (registerAll new regs).run h name arg ret
          =
        (registerAll new regs, .ok ([⟨m, args'⟩], arg', ret'))
        ∧
        m.params.Same args args' ∧
        arg'.bytes = rest ∧
        ret'.bytes = ret.bytes ++ encodeReturn m.returnType (m.function args') := by
  have hmethod : (registerAll new regs).methods name = some (some m) := by
    rw [registerAll_methods]
    rw [hlast]
    rfl
  rw [writeArgs_bytes] at harg
  rcases runMethod_args h m hfree args hwf arg ret rest harg with
    ⟨args', arg', ret', hrun, hsame, hrest, hret⟩
  refine ⟨args', arg', ret', ?_, hsame, hrest, hret⟩
  rw [run_of_methods h _ name m hmethod]
  rw [hrun]

def addInt8 : Method where
  params := .cons (.scalar .int8) (.cons (.scalar .int8) .nil)
  returnType := some (.scalar .int8)
  function args := BitVec.add args.1 args.2.1

theorem run_calls_lastRegistered_add
    : let regs := [("add", ⟨.nil, none, fun _ => ()⟩), ("add", addInt8)]
      ∃ args' arg' ret',
        (registerAll new regs).run Placement.front "add"
            ⟨⟨[2#8, 3#8, 9#8], fun _ => 0#8⟩⟩ (Serializer.new fun _ => 0#8)
          =
        (registerAll new regs, .ok ([⟨addInt8, args'⟩], arg', ret'))
        ∧
        addInt8.params.Same (2#8, 3#8, ()) args' ∧
        arg'.bytes = [9#8] ∧
        ret'.bytes = [] ++ encodeReturn addInt8.returnType (addInt8.function args') := by
  intro regs
  have hlast : lastRegistered regs "add" = some addInt8 := by simp [regs, lastRegistered]
  have hwf : addInt8.params.Wf (2#8, 3#8, ()) := ⟨trivial, trivial, trivial⟩
  apply run_calls_lastRegistered Placement.front regs "add" addInt8 hlast rfl _ hwf (fun _ => 0#8)
  rfl

end RpcProvider
end Fish
