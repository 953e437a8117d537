import FishRpc.Net.Impl.RequestQueue
import FishRpc.Net.Lemmas.UringQueue

/-!
This module contains what the threads see of a queue of requests: a queue from which the first
requests are taken out, as many as there are free slots. `Uring.takeRecv` and `Uring.takeSend` are
the same sections in one step.
-/

namespace Fish

namespace RequestQueue

variable {T κ : Type} {que : List κ}

/-! ### The queue -/

-- the first request is the head
def apply : Op κ → List κ → Result κ × List κ
  | .addReadRequest request, que => (.add (que.length + 1), que ++ [request])
  | .addWriteRequest request, que => (.add 0, que ++ [request])
  | .take freeNum, que => (.take (que.take freeNum) (freeNum - que.length), que.drop freeNum)

-- the requests that have been added and those that have been taken
def added (lin : List (T × Op κ × Result κ)) : List κ :=
  lin.filterMap fun
    | (_, .addReadRequest request, _) => some request
    | (_, .addWriteRequest request, _) => some request
    | _ => none

def taken (lin : List (T × Op κ × Result κ)) : List κ :=
  lin.flatMap fun
    | (_, _, .take temp _) => temp
    | _ => []

theorem taken_append_que {lin : List (T × Op κ × Result κ)}
    (h : Monitor.Serial apply [] lin que) : taken lin ++ que = added lin := by
  induction h with
  | nil => rfl
  | @snoc lin que que' e _ _ hstep ih =>
    rcases e with ⟨t, op, result⟩
    have htaken : taken (lin ++ [(t, op, result)]) = taken lin ++ taken [(t, op, result)] :=
      List.flatMap_append
    have hadded : added (lin ++ [(t, op, result)]) = added lin ++ added [(t, op, result)] :=
      List.filterMap_append
    rw [htaken, hadded, ← ih]
    unfold Monitor.Serve at hstep
    cases op with
    | addReadRequest request | addWriteRequest request =>
      cases hstep
      simp [taken, added]
    | take freeNum =>
      cases hstep
      simp [taken, added]

-- what is taken uses up its slots
theorem slots_of_mem {t : T} {lin : List (T × Op κ × Result κ)} {freeNum rest : Nat} {temp : List κ}
    (h : Monitor.Serial apply [] lin que)
    (hmem : (t, Op.take freeNum, Result.take temp rest) ∈ lin) : temp.length + rest = freeNum := by
  induction h with
  | nil => cases hmem
  | @snoc lin que que' e _ _ hstep ih =>
    rcases List.mem_append.mp hmem with hmem | hmem
    . exact ih hmem
    . rw [List.mem_singleton] at hmem
      subst hmem
      unfold Monitor.Serve at hstep
      cases hstep
      rw [List.length_take]
      omega

theorem takeLoop_exec (i : Nat) (temp : List κ) (que : List κ) (h : i ≤ que.length)
    : (takeLoop i temp).exec que = (.take (temp ++ que.take i) 0, que.drop i) := by
  induction i generalizing temp que with
  | zero => simp [takeLoop, Monitor.Body.exec]
  | succ i ih =>
    cases que with
    | nil => simp at h
    | cons request que =>
      have hrest : i ≤ que.length := by simpa using h
      simp [takeLoop, Monitor.Body.exec, ih _ _ hrest]

theorem body_exec (op : Op κ) (que : List κ) : (body op).exec que = apply op que := by
  cases op with
  | addReadRequest request | addWriteRequest request => simp [body, Monitor.Body.exec, apply]
  | take freeNum =>
    simp only [body, Monitor.Body.exec, apply, id_eq]
    split
    . rename_i hsize
      rw [List.length_eq_zero_iff] at hsize
      subst hsize
      simp [Monitor.Body.exec]
    . split
      . rename_i hle
        rw [List.take_of_length_le hle, List.drop_of_length_le hle]
        rfl
      . rename_i hlt
        rw [takeLoop_exec freeNum [] que (by omega)]
        have hzero : freeNum - que.length = 0 := by omega
        simp [hzero]

theorem refines : Monitor.Refines (body (κ := κ)) apply Eq := by
  rintro op que _ rfl
  rw [body_exec]
  exact ⟨rfl, rfl⟩

/-! ### The sections of the loop -/

theorem takeRecv_exec (s : Uring)
    : (body (.take s.freeNum)).exec s.recvQue =
        (.take s.takeRecv.1 s.takeRecv.2.freeNum, s.takeRecv.2.recvQue) := by
  rw [body_exec]
  unfold Uring.takeRecv apply
  dsimp only
  split
  . rename_i hle
    rw [List.take_of_length_le hle, List.drop_of_length_le hle]
  . rename_i hlt
    have hzero : s.freeNum - s.recvQue.length = 0 := by omega
    rw [hzero]

theorem takeSend_exec (s : Uring)
    : (body (.take s.freeNum)).exec s.sendQue =
        (.take s.takeSend.1 s.takeSend.2.freeNum, s.takeSend.2.sendQue) := by
  rw [body_exec]
  unfold Uring.takeSend apply
  dsimp only
  split
  . rename_i hle
    rw [List.take_of_length_le hle, List.drop_of_length_le hle]
  . rename_i hlt
    have hzero : s.freeNum - s.sendQue.length = 0 := by omega
    rw [hzero]

/-! ### Any number of threads -/

variable [DecidableEq T] {s : RequestQueue T κ} {es : List (T × Monitor.Action (Op κ))}

theorem fifo_of_run (h : Run Step Run.Always new es s)
    : (s.owner = none → taken s.lin ++ s.state = added s.lin) ∧
      (∀ t, s.returned t ++ (s.phase t).pending = Interleaving.own t s.lin) ∧
      ∀ t freeNum temp rest, (t, Op.take freeNum, Result.take temp rest) ∈ s.lin →
        temp.length + rest = freeNum := by
  rcases Monitor.linearizable refines rfl h with ⟨que, hserial, hstate, hresults⟩
  refine ⟨?_, hresults, fun _ _ _ _ hmem => slots_of_mem hserial hmem⟩
  intro howner
  rw [hstate howner]
  exact taken_append_que hserial

-- thread 1 adds a request while thread 0 waits to take one out
def takeRun : List (Nat × Monitor.Action (Op Nat)) :=
  [(1, .call (.addReadRequest 7)), (1, .lock), (1, .access), (0, .call (.take 1)), (1, .access),
    (1, .unlock), (1, .ret), (1, .call (.addReadRequest 8)), (1, .lock), (1, .access), (1, .access),
    (1, .unlock), (0, .lock), (0, .access), (0, .access), (0, .unlock)]

theorem fifo_of_run_take
    : ∃ s : RequestQueue Nat Nat,
        Run Step Run.Always new takeRun s ∧ taken s.lin = [7] ∧ added s.lin = [7, 8] ∧
          taken s.lin ++ s.state = added s.lin := by
  have hlists : (Run.execute (Monitor.step body) Run.Always new takeRun).map
      (fun s => (s.lin, s.owner)) =
        some ([(1, .addReadRequest 7, .add 1), (1, .addReadRequest 8, .add 2),
          (0, .take 1, .take [7] 0)], none) := by
    decide
  rcases Option.map_eq_some_iff.mp hlists with ⟨s, hs, heq⟩
  rw [Prod.mk.injEq] at heq
  have hrun : Run Step Run.Always new takeRun s := Run.of_execute (fun _ _ _ hstep => hstep) hs
  refine ⟨s, hrun, ?_, ?_, (fifo_of_run hrun).1 heq.2⟩
  . rw [heq.1]
    rfl
  . rw [heq.1]
    rfl

end RequestQueue
end Fish
