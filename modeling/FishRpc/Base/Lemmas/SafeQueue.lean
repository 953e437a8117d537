import FishRpc.Base.Impl.SafeQueue

/-!
This module contains what the threads see of a `MyQueue`: a bounded stack. It hands out the element
that was put in last, refuses when it is full and loses nothing.
-/

namespace Fish

variable {T α : Type}

/-! ### The bounded stack -/

namespace BoundedStack

open MyQueue (Op Result)

-- the top is the head
def apply (capacity : Nat) : Op α → List α → Result α × List α
  | .empty, stack => (.empty stack.isEmpty, stack)
  | .tryPop, [] => (.tryPop none, [])
  | .tryPop, top :: stack => (.tryPop (some top), stack)
  | .push element, stack =>
    if stack.length = capacity then (.push false, stack) else (.push true, element :: stack)
  | .size, stack => (.size (sizeToInt stack.length), stack)

-- what `push` has taken and what `try_pop` has given back
def pushed (lin : List (T × Op α × Result α)) : List α :=
  lin.filterMap fun
    | (_, .push element, .push true) => some element
    | _ => none

def popped (lin : List (T × Op α × Result α)) : List α :=
  lin.filterMap fun
    | (_, _, .tryPop result) => result
    | _ => none

theorem conserved_step {capacity : Nat} {stack stack' : List α} {e : T × Op α × Result α}
    (h : Monitor.Serve (apply capacity) stack e stack')
    : (popped [e] ++ stack').Perm (pushed [e] ++ stack) := by
  rcases e with ⟨t, op, result⟩
  unfold Monitor.Serve at h
  cases op with
  | empty =>
    cases h
    exact List.Perm.refl _
  | tryPop =>
    cases stack with
    | nil =>
      cases h
      exact List.Perm.refl _
    | cons top stack =>
      cases h
      exact List.Perm.refl _
  | push element =>
    simp only [apply] at h
    split at h
    . cases h
      exact List.Perm.refl _
    . cases h
      exact List.Perm.refl _
  | size =>
    cases h
    exact List.Perm.refl _

theorem conserved {capacity : Nat} {stack : List α} {lin : List (T × Op α × Result α)}
    (h : Monitor.Serial (apply capacity) [] lin stack)
    : (popped lin ++ stack).Perm (pushed lin) := by
  induction h with
  | nil => exact List.Perm.refl _
  | @snoc lin stack stack' e _ _ hstep ih =>
    have hpopped : popped (lin ++ [e]) = popped lin ++ popped [e] := List.filterMap_append
    have hpushed : pushed (lin ++ [e]) = pushed lin ++ pushed [e] := List.filterMap_append
    rw [hpopped, hpushed]
    rw [List.append_assoc]
    calc popped lin ++ (popped [e] ++ stack')
      List.Perm _ (popped lin ++ (pushed [e] ++ stack)) := (conserved_step hstep).append_left _
      List.Perm _ (popped lin ++ (stack ++ pushed [e])) := List.perm_append_comm.append_left _
      _ = (popped lin ++ stack) ++ pushed [e] := (List.append_assoc _ _ _).symm
      List.Perm _ (pushed lin ++ pushed [e]) := ih.append_right _

end BoundedStack

namespace MyQueue

-- the end of `que_` is the top of the stack
def Shows (capacity : Nat) (s : MyQueue α) (stack : List α) : Prop :=
  s.que = stack.reverse ∧ s.maxSize = capacity

theorem shows_new (size : Int) : Shows (intToSize size) (new size : MyQueue α) [] := ⟨rfl, rfl⟩

theorem refines (capacity : Nat)
    : Monitor.Refines (body (α := α)) (BoundedStack.apply capacity) (Shows capacity) := by
  rintro op ⟨que, maxSize⟩ stack ⟨hque, hmax⟩
  simp only at hque hmax
  subst hque hmax
  cases op with
  | empty => exact ⟨by cases stack <;> simp [body, Monitor.Body.exec, BoundedStack.apply], rfl, rfl⟩
  | tryPop =>
    cases stack with
    | nil => exact ⟨rfl, rfl, rfl⟩
    | cons top stack => simp [body, Monitor.Body.exec, BoundedStack.apply, Shows]
  | push element =>
    by_cases hfull : stack.length = maxSize
    . simp [body, Monitor.Body.exec, BoundedStack.apply, Shows, hfull]
    . simp [body, Monitor.Body.exec, BoundedStack.apply, Shows, hfull]
  | size => simp [body, Monitor.Body.exec, BoundedStack.apply, Shows]

def Bounded (capacity : Nat) (s : MyQueue α) : Prop :=
  s.maxSize = capacity ∧ s.que.length ≤ capacity

theorem bounded_body {capacity : Nat} (op : Op α) (s : MyQueue α) (h : Bounded capacity s)
    : (body op).Keeps (Bounded capacity) s := by
  rcases h with ⟨hmax, hlength⟩
  cases op with
  | empty => exact ⟨⟨hmax, hlength⟩, hmax, hlength⟩
  | tryPop =>
    refine ⟨⟨hmax, hlength⟩, ?_⟩
    dsimp only [id_eq]
    split
    . exact ⟨hmax, hlength⟩
    . refine ⟨⟨hmax, hlength⟩, ⟨hmax, hlength⟩, hmax, ?_⟩
      simp only [id_eq, List.length_dropLast]
      omega
  | push element =>
    refine ⟨⟨hmax, hlength⟩, ?_⟩
    dsimp only [id_eq]
    split
    . exact ⟨hmax, hlength⟩
    . rename_i hfull
      refine ⟨⟨hmax, hlength⟩, hmax, ?_⟩
      simp only [List.length_append, List.length_singleton]
      omega
  | size => exact ⟨⟨hmax, hlength⟩, hmax, hlength⟩

end MyQueue

namespace SharedQueue

variable [DecidableEq T] {s : SharedQueue T α} {size : Int}
  {es : List (T × Monitor.Action (MyQueue.Op α))}

theorem linearizable_of_run
    (h : Run Step Run.Always (new size) es s)
    : (∃ stack,
        Monitor.Serial (BoundedStack.apply (intToSize size)) [] s.lin stack ∧
          (s.owner = none → s.state.que = stack.reverse)) ∧
      (∀ t, s.returned t ++ (s.phase t).pending = Interleaving.own t s.lin) ∧
      ∀ es' s', Run Step Run.Always s es' s' → ∃ lin, s'.lin = s.lin ++ lin := by
  rcases Monitor.linearizable (MyQueue.refines _) (MyQueue.shows_new size) h with
    ⟨stack, hserial, hshows, hresults⟩
  refine ⟨⟨stack, hserial, fun howner => (hshows howner).1⟩, hresults, ?_⟩
  intro es' s' h'
  exact Monitor.lin_run h'

-- thread 2 calls `push` while thread 1 is in the section, and the queue has room for one element
def refusedRun : List (Nat × Monitor.Action (MyQueue.Op Nat)) :=
  [(1, .call (.push 7)), (1, .lock), (1, .access), (2, .call (.push 8)), (1, .access), (1, .unlock),
    (2, .lock), (2, .access), (2, .unlock), (1, .ret), (2, .ret), (2, .call .tryPop), (2, .lock),
    (2, .access), (2, .access), (2, .access), (2, .unlock)]

theorem refusedRun_run
    : ∃ s : SharedQueue Nat Nat,
        Run Step Run.Always (new 1) refusedRun s ∧
          s.lin =
            [(1, .push 7, .push true), (2, .push 8, .push false), (2, .tryPop, .tryPop (some 7))] ∧
          s.owner = none := by
  have hlists : (Run.execute (Monitor.step MyQueue.body) Run.Always (new 1) refusedRun).map
      (fun s => (s.lin, s.owner)) =
        some ([(1, .push 7, .push true), (2, .push 8, .push false),
          (2, .tryPop, .tryPop (some 7))], none) := by
    decide
  rcases Option.map_eq_some_iff.mp hlists with ⟨s, hs, heq⟩
  rw [Prod.mk.injEq] at heq
  exact ⟨s, Run.of_execute (fun _ _ _ hstep => hstep) hs, heq.1, heq.2⟩

theorem linearizable_of_run_refused
    : ∃ s : SharedQueue Nat Nat,
        Run Step Run.Always (new 1) refusedRun s ∧
          ∃ stack,
            Monitor.Serial (BoundedStack.apply 1)
              [] [(1, .push 7, .push true), (2, .push 8, .push false),
                (2, .tryPop, .tryPop (some 7))] stack := by
  rcases refusedRun_run with ⟨s, hrun, hlin, -⟩
  rcases (linearizable_of_run hrun).1 with ⟨stack, hserial, -⟩
  rw [hlin] at hserial
  exact ⟨s, hrun, stack, hserial⟩

theorem popped_perm_of_run (h : Run Step Run.Always (new size) es s)
    : s.state.que.length ≤ intToSize size ∧
      (s.owner = none →
        (BoundedStack.popped s.lin ++ s.state.que).Perm (BoundedStack.pushed s.lin)) := by
  constructor
  . exact (Monitor.state_of_run MyQueue.bounded_body ⟨rfl, Nat.zero_le _⟩ h).2
  . intro howner
    rcases Monitor.linearizable (MyQueue.refines _) (MyQueue.shows_new size) h with
      ⟨stack, hserial, hshows, -⟩
    rw [(hshows howner).1]
    exact ((List.reverse_perm stack).append_left _).trans (BoundedStack.conserved hserial)

theorem popped_perm_of_run_refused
    : ∃ s : SharedQueue Nat Nat,
        Run Step Run.Always (new 1) refusedRun s ∧
          (BoundedStack.popped s.lin ++ s.state.que).Perm (BoundedStack.pushed s.lin) := by
  rcases refusedRun_run with ⟨s, hrun, -, howner⟩
  exact ⟨s, hrun, (popped_perm_of_run hrun).2 howner⟩

end SharedQueue
end Fish
