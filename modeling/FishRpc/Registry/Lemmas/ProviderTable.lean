import FishRpc.Registry.Impl.ProviderTable

/-!
This module contains the records that any number of threads add to `providers_`: they are those of
the calls in the order in which the threads have left the section, each with its index as id. The
index is truncated to 16 bits.
-/

namespace Fish
namespace ProviderTable

variable {T : Type} {providers : List ProviderMes}

-- one call of `providerNew` after the other
def apply (mes : ProviderMes) (providers : List ProviderMes) : Unit × List ProviderMes :=
  ((), providers ++ [{ mes with id := BitVec.ofNat 16 providers.length }])

theorem refines : Monitor.Refines body apply Eq := by
  rintro mes providers _ rfl
  exact ⟨rfl, rfl⟩

theorem providerNew_exec (s : RpcRegistry) (channel : ChannelId) (now : Int) (id : BitVec 16)
    : (body ⟨id, s.addr channel, .health, channel, now⟩).exec s.providers =
        ((), (s.providerNew channel now).providers) := rfl

theorem numbered_serial {lin : List (T × ProviderMes × Unit)}
    (h : Monitor.Serial apply [] lin providers)
    : providers = lin.mapIdx fun i e => { e.2.1 with id := BitVec.ofNat 16 i } := by
  induction h with
  | nil => rfl
  | @snoc lin providers providers' e _ _ hstep ih =>
    rcases e with ⟨t, mes, result⟩
    cases hstep
    have hlength : providers.length = lin.length := by
      rw [ih]
      simp
    rw [List.mapIdx_concat, ← ih]
    rw [hlength]

def Numbered (providers : List ProviderMes) : Prop :=
  ∀ i mes, providers[i]? = some mes → mes.id = BitVec.ofNat 16 i

theorem numbered_body (mes : ProviderMes) (providers : List ProviderMes) (h : Numbered providers)
    : (body mes).Keeps Numbered providers := by
  refine ⟨h, h, ?_⟩
  intro i mes' hmes
  rw [id_eq, List.getElem?_append] at hmes
  split at hmes
  . exact h i mes' hmes
  . rename_i hlt
    rcases List.getElem?_eq_some_iff.mp hmes with ⟨hindex, hlast⟩
    rw [List.length_singleton] at hindex
    have hi : i = providers.length := by omega
    rw [List.getElem_singleton] at hlast
    rw [← hlast, hi]

variable [DecidableEq T] {s : ProviderTable T} {es : List (T × Monitor.Action ProviderMes)}

theorem numbered_of_run (h : Run Step Run.Always new es s)
    : (∀ i mes, s.state[i]? = some mes → mes.id = BitVec.ofNat 16 i) ∧
      (s.owner = none →
        s.state = s.lin.mapIdx fun i e => { e.2.1 with id := BitVec.ofNat 16 i }) ∧
      ∀ t, s.returned t ++ (s.phase t).pending = Interleaving.own t s.lin := by
  rcases Monitor.linearizable refines rfl h with ⟨providers, hserial, hstate, hresults⟩
  refine ⟨Monitor.state_of_run numbered_body (by simp [Numbered]) h, ?_, hresults⟩
  intro howner
  rw [hstate howner]
  exact numbered_serial hserial

-- two threads register, the second one while the first one is in the section
def record (channel : ChannelId) : ProviderMes where
  id := 0
  addr := TcpAddr.default
  status := .health
  channel
  lastHeartSend := 0

def registerRun : List (Nat × Monitor.Action ProviderMes) :=
  [(1, .call (record 5)), (2, .call (record 6)), (2, .lock), (2, .access), (2, .access), (2, .unlock),
    (1, .lock), (1, .access), (1, .access), (1, .unlock), (1, .ret)]

theorem numbered_of_run_register
    : ∃ s : ProviderTable Nat,
        Run Step Run.Always new registerRun s ∧ s.lin = [(2, record 6, ()), (1, record 5, ())] ∧
          s.state = [record 6, { record 5 with id := 1 }] := by
  have hlists : (Run.execute (Monitor.step body) Run.Always new registerRun).map
      (fun s : ProviderTable Nat => (s.lin, s.owner)) =
        some ([(2, record 6, ()), (1, record 5, ())], none) := rfl
  rcases Option.map_eq_some_iff.mp hlists with ⟨s, hs, heq⟩
  rw [Prod.mk.injEq] at heq
  have hrun : Run Step Run.Always new registerRun s := Run.of_execute (fun _ _ _ hstep => hstep) hs
  refine ⟨s, hrun, heq.1, ?_⟩
  rw [(numbered_of_run hrun).2.1 heq.2, heq.1]
  rfl

end ProviderTable
end Fish
