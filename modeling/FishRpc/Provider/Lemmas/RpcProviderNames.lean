import FishRpc.Lib.Run
import FishRpc.Provider.Lemmas.RpcProvider

/-!
This module contains the names in the method table after any sequence of registrations and calls.
-/

namespace Fish

inductive ProviderOp where
  | registerMethod (name : String) (func : Method)
  | run (name : String) (arg ret : Serializer)

-- `registered` is history
structure Providing where
  provider : RpcProvider
  registered : List String

namespace Providing

def new : Providing where
  provider := RpcProvider.new
  registered := []

def apply (h : Placement) (s : Providing) : ProviderOp → Providing
  | .registerMethod name func =>
    { provider := s.provider.registerMethod name func, registered := s.registered ++ [name] }
  | .run name arg ret => { s with provider := (s.provider.run h name arg ret).1 }

def names (s : Providing) : Set String :=
  { name | s.provider.methods name ≠ none }

def registeredNames (s : Providing) : Set String :=
  { name | name ∈ s.registered }

-- a call under a name that has not been registered fails and leaves the table alone
def RunFails (h : Placement) (s : Providing) : ProviderOp → Prop
  | .run name arg ret =>
    name ∉ s.registered →
      (s.provider.run h name arg ret).2 = .error .badFunctionCall ∧
        (s.provider.run h name arg ret).1 = s.provider
  | _ => True

def KeepsNames (h : Placement) (s : Providing) (op : ProviderOp) : Prop :=
  (s.apply h op).names = (s.apply h op).registeredNames ∧ s.RunFails h op

def RunsRegistered (s : Providing) : ProviderOp → Prop
  | .run name _ _ => name ∈ s.registered
  | _ => True

structure Inv (s : Providing) : Prop where
  registered : ∀ name ∈ s.registered, ∃ m, s.provider.methods name = some (some m)
  others : ∀ name, name ∉ s.registered → s.provider.methods name = none

theorem inv_new : Inv new where
  registered name hname := by cases hname
  others _ _ := rfl

variable {h : Placement} {s : Providing}

theorem Inv.names_eq (hinv : Inv s) : s.names = s.registeredNames := by
  ext name
  constructor
  . intro hname
    apply Classical.byContradiction
    intro hother
    exact hname (hinv.others name hother)
  . intro hname hnone
    rcases hinv.registered name hname with ⟨m, hm⟩
    rw [hm] at hnone
    cases hnone

theorem Inv.registerMethod (hinv : Inv s) (name : String) (func : Method)
    : Inv (s.apply h (.registerMethod name func)) := by
  constructor
  . intro name' hname'
    by_cases hname : name' = name
    . rw [hname]
      exact ⟨func, RpcProvider.registerMethod_methods_self _ name func⟩
    . rcases List.mem_append.mp hname' with hold | hnew
      . rcases hinv.registered name' hold with ⟨m, hm⟩
        refine ⟨m, ?_⟩
        rw [← hm]
        apply RpcProvider.registerMethod_methods_of_ne _ func hname
      . exact absurd (List.mem_singleton.mp hnew) hname
  . intro name' hname'
    have hname : name' ∉ s.registered ++ [name] := hname'
    rw [List.mem_append, List.mem_singleton, not_or] at hname
    rw [← hinv.others name' hname.1]
    apply RpcProvider.registerMethod_methods_of_ne _ func hname.2

theorem Inv.run (hinv : Inv s) {name : String} (hname : name ∈ s.registered) (arg ret : Serializer)
    : s.apply h (.run name arg ret) = s := by
  rcases hinv.registered name hname with ⟨m, hm⟩
  unfold apply
  simp only
  rw [RpcProvider.run_of_methods h _ name m hm]

theorem run_inserts (h : Placement) (s : Providing) (name : String) (arg ret : Serializer)
    : name ∈ (s.apply h (.run name arg ret)).names := by
  have hinsert : (s.provider.run h name arg ret).1.methods name
      = some ((s.provider.methods name).getD none) := by
    unfold RpcProvider.run
    simp only
    split
    . apply Function.update_self
    . apply Function.update_self
  show (s.provider.run h name arg ret).1.methods name ≠ none
  rw [hinsert]
  exact Option.some_ne_none _

theorem Inv.of_runsRegistered (hinv : Inv s) {op : ProviderOp} (hop : s.RunsRegistered op)
    : Inv (s.apply h op) := by
  cases op with
  | registerMethod name func => apply hinv.registerMethod
  | run name arg ret =>
    rw [hinv.run hop]
    exact hinv

theorem Inv.keepsNames_iff (hinv : Inv s) (op : ProviderOp)
    : s.KeepsNames h op ↔ s.RunsRegistered op := by
  constructor
  . intro hkeeps
    cases op with
    | registerMethod name func => exact trivial
    | run name arg ret =>
      have hname := run_inserts h s name arg ret
      rw [hkeeps.1] at hname
      exact hname
  . intro hop
    refine ⟨(hinv.of_runsRegistered hop).names_eq, ?_⟩
    cases op with
    | registerMethod name func => exact trivial
    | run name arg ret => exact fun hother => absurd hop hother

/--
The table holds exactly the registered names after every step of a run, exactly if no call uses a
name that has not been registered before.
-/
theorem keepsNames_iff_runsRegistered (h : Placement) (ops : List ProviderOp) (s : Providing)
    : Run (Run.Next (apply h)) (KeepsNames h) new ops s
        ↔
      Run (Run.Next (apply h)) RunsRegistered new ops s := by
  apply Run.meets_congr inv_new
  . intro s op s' hinv hop hstep
    rw [hstep]
    apply hinv.of_runsRegistered hop
  . intro s op s' hinv hstep
    apply hinv.keepsNames_iff

theorem not_keepsNames_unknown
    : ¬∀ h ops s, Run (Run.Next (apply h)) Run.Always new ops s → s.names = s.registeredNames := by
  intro h
  let call : ProviderOp := .run "f" (Serializer.new fun _ => 0#8) (Serializer.new fun _ => 0#8)
  have hrun : Run (Run.Next (apply Placement.front)) Run.Always new [call] _ :=
    Run.single rfl
  have hname := run_inserts Placement.front new "f" (Serializer.new fun _ => 0#8)
    (Serializer.new fun _ => 0#8)
  rw [h Placement.front [call] _ hrun] at hname
  cases hname

end Providing
end Fish
