import FishRpc.Lib.Run
import FishRpc.Provider.Lemmas.RpcProvider
import FishRpc.Rpc.Lemmas.SerializerStream

/-!
This module contains the provider in use: methods are registered, callers write the arguments of
their calls to `arg`, the calls are run and the results are read from `ret`, in any order in which
no call is run before its arguments are there and no result is read before it is. Several calls may
be under way at once and their names may be registered anew in between.
-/

namespace Fish

abbrev MethodCall := Sigma fun m : Method => m.params.carrier

abbrev CallResult := Sigma (@CppType.carrier .type)

def Invocation.call (i : Invocation) : MethodCall :=
  ⟨i.method, i.args⟩

def MethodCall.result : MethodCall → Option CallResult
  | ⟨⟨_, none, _⟩, _⟩ => none
  | ⟨⟨_, some returnType, function⟩, args⟩ => some ⟨returnType, function args⟩

def results (calls : List MethodCall) : List CallResult :=
  calls.filterMap MethodCall.result

def Method.Supported (m : Method) (args : m.params.carrier) : Prop :=
  m.params.stringFree = true ∧ m.params.Wf args

-- results are objects that a program can hold, of a type that can be read back
def Method.Returns (m : Method) : Prop :=
  ∀ args r, MethodCall.result ⟨m, args⟩ = some r → Serializer.Supported r.1 r.2

inductive SessionOp where
  | registerMethod (name : String) (func : Method)
  | write (m : Method) (args : m.params.carrier)
  | run (name : String)
  | read (t : CppType .type)

-- the lists are history: `called` as the callers wrote it, `invoked` as the functions saw it
structure ProviderSession where
  provider : RpcProvider
  arg : Serializer
  ret : Serializer
  registered : List (String × Method)
  called : List MethodCall
  invoked : List MethodCall
  read : List CallResult
  thrown : Bool

namespace ProviderSession

def new (stack stack' : Stack) : ProviderSession where
  provider := RpcProvider.new
  arg := Serializer.new stack
  ret := Serializer.new stack'
  registered := []
  called := []
  invoked := []
  read := []
  thrown := false

def apply (h : Placement) (s : ProviderSession) : SessionOp → ProviderSession
  | .registerMethod name func =>
    { s with
      provider := s.provider.registerMethod name func
      registered := s.registered ++ [(name, func)] }
  | .write m args =>
    { s with arg := writeArgs m.params args s.arg, called := s.called ++ [⟨m, args⟩] }
  | .run name =>
    match s.provider.run h name s.arg s.ret with
    | (provider, .error .badFunctionCall) => { s with provider := provider, thrown := true }
    | (provider, .ok (invocations, arg, ret)) =>
      { s with
        provider := provider
        arg := arg
        ret := ret
        invoked := s.invoked ++ invocations.map Invocation.call }
  | .read t =>
    let (v, ret) := Serializer.shr h t t.default s.ret
    { s with ret := ret, read := s.read ++ [⟨t, v⟩] }

-- the call whose arguments are first in `arg`
def nextCall (s : ProviderSession) : Option MethodCall :=
  (s.called.drop s.invoked.length).head?

-- the result that is first in `ret`
def nextResult (s : ProviderSession) : Option CallResult :=
  ((results s.invoked).drop s.read.length).head?

-- calls are run in the order in which they were written, under a name that their method has then
def InTurn (s : ProviderSession) : SessionOp → Prop
  | .registerMethod _ _ => True
  | .write m args => m.Supported args ∧ m.Returns
  | .run name =>
    ∃ call, s.nextCall = some call ∧ RpcProvider.lastRegistered s.registered name = some call.1
  | .read t => ∃ v, s.nextResult = some ⟨t, v⟩

def argCoder (h : Placement) : Coder Method (fun m => m.params.carrier) Byte Serializer where
  encode m := Serializer.encode (.tuple m.params)
  buffer := Serializer.bytes
  write m := writeArgs m.params
  read m s := Serializer.shr h (.tuple m.params) m.params.default s

theorem argCoder_lawful (h : Placement)
    : (argCoder h).Lawful Method.Supported (fun m => m.params.Same) where
  buffer_write m := writeArgs_bytes m.params
  read_encode m args s rest hargs hs :=
    Serializer.shr_reads h (.tuple m.params) hargs.1 args hargs.2 s rest hs

structure Inv (h : Placement) (s : ProviderSession) : Prop where
  provider : s.provider = RpcProvider.registerAll RpcProvider.new s.registered
  returns : ∀ call ∈ s.called, call.1.Returns
  args : (argCoder h).Carries Method.Supported (fun m => m.params.Same) s.arg s.called s.invoked
  rets : (Serializer.coder h).Carries Serializer.Supported CppType.Same s.ret (results s.invoked)
    s.read
  thrown : s.thrown = false

theorem inv_new (h : Placement) (stack stack' : Stack) : Inv h (new stack stack') where
  provider := rfl
  returns call hcall := by cases hcall
  args := Coder.Carries.init rfl
  rets := Coder.Carries.init rfl
  thrown := rfl

variable {h : Placement} {s : ProviderSession}

theorem Inv.registerMethod (hs : Inv h s) (name : String) (func : Method)
    : Inv h (s.apply h (.registerMethod name func)) where
  provider := by
    show s.provider.registerMethod name func
      = RpcProvider.registerAll RpcProvider.new (s.registered ++ [(name, func)])
    rw [RpcProvider.registerAll_concat, ← hs.provider]
  returns := hs.returns
  args := hs.args
  rets := hs.rets
  thrown := hs.thrown

theorem Inv.write (hs : Inv h s) {m : Method} {args : m.params.carrier}
    (hargs : m.Supported args) (hreturns : m.Returns) : Inv h (s.apply h (.write m args)) where
  provider := hs.provider
  returns call hcall := by
    rcases List.mem_append.mp hcall with hold | hnew
    . apply hs.returns call hold
    . rcases List.mem_singleton.mp hnew with rfl
      exact hreturns
  args := hs.args.write hargs (writeArgs_bytes m.params args s.arg)
  rets := hs.rets
  thrown := hs.thrown

theorem runMethod_eq (h : Placement) (m : Method) (arg ret : Serializer)
    : let (args, arg') := (argCoder h).read m arg
      RpcProvider.runMethod h m arg ret
        =
      ([⟨m, args⟩], arg',
        match MethodCall.result ⟨m, args⟩ with
        | none => ret
        | some r => Serializer.shl r.1 r.2 ret) := by
  rcases m with ⟨params, returnType, function⟩
  cases returnType <;> rfl

theorem results_concat (calls : List MethodCall) (call : MethodCall)
    : results (calls ++ [call]) = results calls ++ call.result.toList := by
  unfold results
  rw [List.filterMap_append]
  cases hresult : call.result <;> simp [hresult]

theorem Inv.run (hs : Inv h s) {name : String} {call : MethodCall}
    (hnext : s.nextCall = some call)
    (hname : RpcProvider.lastRegistered s.registered name = some call.1)
    : Inv h (s.apply h (.run name)) := by
  obtain ⟨m, args⟩ := call
  have hmethod : s.provider.methods name = some (some m) := by
    rw [hs.provider, RpcProvider.registerAll_methods, hname]
    rfl
  have hmem : (⟨m, args⟩ : MethodCall) ∈ s.called :=
    List.mem_of_mem_drop (List.mem_of_mem_head? hnext)
  have hreturns : m.Returns := hs.returns _ hmem
  have hread := hs.args.read (argCoder_lawful h) hnext
  have hrun := RpcProvider.run_of_methods h s.provider name m hmethod s.arg s.ret
  rw [runMethod_eq] at hrun
  unfold apply
  simp only [hrun]
  refine ⟨hs.provider, hs.returns, hread.2, ?_, hs.thrown⟩
  -- the result is written behind those that have not been read yet
  show (Serializer.coder h).Carries _ _ _ (results (s.invoked ++ [⟨m, _⟩])) s.read
  rw [results_concat]
  split
  . rename_i hnone
    rw [hnone, Option.toList_none, List.append_nil]
    exact hs.rets
  . rename_i r hsome
    rw [hsome, Option.toList_some]
    exact hs.rets.write (hreturns _ r hsome) (Serializer.shl_bytes r.1 r.2 s.ret)

theorem Inv.read (hs : Inv h s) {t : CppType .type} {v : t.carrier}
    (hnext : s.nextResult = some ⟨t, v⟩) : Inv h (s.apply h (.read t)) where
  provider := hs.provider
  returns := hs.returns
  args := hs.args
  rets := (hs.rets.read (Serializer.coder_lawful h) hnext).2
  thrown := hs.thrown

theorem Inv.step (hs : Inv h s) {op : SessionOp} (hop : s.InTurn op) : Inv h (s.apply h op) := by
  cases op with
  | registerMethod name func => exact hs.registerMethod name func
  | write m args => exact hs.write hop.1 hop.2
  | run name =>
    rcases hop with ⟨call, hnext, hname⟩
    exact hs.run hnext hname
  | read t =>
    rcases hop with ⟨v, hnext⟩
    exact hs.read hnext

theorem inv_of_run {stack stack' : Stack} {ops : List SessionOp}
    (hrun : Run (Run.Next (apply h)) InTurn (new stack stack') ops s) : Inv h s := by
  apply Run.invariant hrun (inv_new h stack stack')
  intro s op s' hs hop hstep
  rw [hstep]
  exact hs.step hop

end ProviderSession
end Fish
