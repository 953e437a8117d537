import FishRpc.Base.Impl.TimerLoop
import FishRpc.Base.Lemmas.TimerFate
import Mathlib.Data.Nat.ModEq

/-!
This module contains the pace of the loop in `Timer::start`, while other threads add and remove
tasks. Whatever the tasks take, a round waits for the rest of its slot, so a slot is not scanned again
before a whole revolution has passed.
-/

namespace Fish

theorem delayMs_spec {ms : Int} {readings : List Int} (h : delayMs ms readings = some [])
    : ∃ now spins last, readings = now :: (spins ++ [last]) ∧ now + ms ≤ last := by
  cases readings with
  | nil => cases h
  | cons now readings =>
    unfold delayMs at h
    simp only at h
    split at h
    . cases h
    . rename_i last rest hdrop
      cases h
      have hhead := List.head?_dropWhile_not (fun reading => decide (now + ms > reading)) readings
      rw [hdrop] at hhead
      have hsplit := List.takeWhile_append_dropWhile
        (p := fun reading => decide (now + ms > reading)) (l := readings)
      rw [hdrop] at hsplit
      refine ⟨now, _, last, congrArg (now :: ·) hsplit.symm, ?_⟩
      simpa using hhead

namespace Timer

inductive LoopEvent where
  | call (e : Event)
  | round (r : ClockReadings)

-- the loop together with the history of its ticks
structure Pacing where
  clocked : Clocked
  timeBegin : Int
  timeEnd : Int

namespace Pacing

def start (timeInterval : Nat) (hpos : 0 < timeInterval) (hle : timeInterval ≤ 1000) : Pacing where
  clocked := .start timeInterval hpos hle
  timeBegin := 0
  timeEnd := 0

abbrev timer (s : Pacing) : Timer := s.clocked.timer

def loop (s : Pacing) : TimerLoop where
  timer := s.timer
  timeBegin := s.timeBegin
  timeEnd := s.timeEnd

def step (s : Pacing) : LoopEvent → Option Pacing
  | .call e => if e.isTick then none else some { s with clocked := s.clocked.next e }
  | .round r =>
    (s.loop.round r).map fun next =>
      { clocked := s.clocked.next (.tick r.timeBegin r.clock)
        timeBegin := next.1.timeBegin
        timeEnd := next.1.timeEnd }

def Step (s : Pacing) (e : LoopEvent) (s' : Pacing) : Prop := s.step e = some s'

-- the clock is not set back
def ClockAdvances (s : Pacing) : LoopEvent → Prop
  | .call _ => True
  | .round r => (s.timeEnd :: (r.delay ++ [r.timeBegin, r.timeEnd])).Pairwise (· ≤ ·)

instance (s : Pacing) (e : LoopEvent) : Decidable (s.ClockAdvances e) := by
  cases e <;> (unfold ClockAdvances; infer_instance)

variable {s s' : Pacing} {p : TaskPtr}

theorem step_round {r : ClockReadings} (h : Step s (.round r) s')
    : delayMs s.loop.delay r.delay = some [] ∧
        s' = { clocked := s.clocked.next (.tick r.timeBegin r.clock)
               timeBegin := r.timeBegin
               timeEnd := r.timeEnd } := by
  unfold Step step TimerLoop.round at h
  simp only at h
  split at h
  . rename_i hdelay
    exact ⟨hdelay, (Option.some.inj h).symm⟩
  . cases h

-- a round begins at least the width of a slot after the last one
theorem spaced_of_round {r : ClockReadings} (hle : s.timeBegin ≤ s.timeEnd)
    (hdelay : delayMs s.loop.delay r.delay = some []) (hclock : s.ClockAdvances (.round r))
    : s.timeBegin + s.timer.slotTime ≤ r.timeBegin ∧ r.timeBegin ≤ r.timeEnd := by
  rcases delayMs_spec hdelay with ⟨now, spins, last, hreadings, hlast⟩
  unfold ClockAdvances at hclock
  simp only [hreadings] at hclock
  have hnow : s.timeEnd ≤ now := (List.pairwise_cons.mp hclock).1 now (by simp)
  have hreads := (List.pairwise_cons.mp hclock).2
  have hwait : now ≤ r.timeBegin := (List.pairwise_cons.mp hreads).1 r.timeBegin (by simp)
  have htail := (List.pairwise_cons.mp hreads).2
  have hafter : last ≤ r.timeBegin := by
    refine (List.pairwise_append.mp htail).2.2 last (by simp) r.timeBegin (by simp)
  have hend : r.timeBegin ≤ r.timeEnd := by
    have hpair := (List.pairwise_append.mp htail).2.1
    exact (List.pairwise_cons.mp hpair).1 r.timeEnd (by simp)
  refine ⟨?_, hend⟩
  have hslot : s.timer.slotTime ≤ 1000 := Nat.div_le_self 1000 _
  by_cases hlong : s.timer.slotTime ≤ s.timeEnd - s.timeBegin
  . -- the tasks of the last round took longer than the slot
    omega
  . have hexact : s.loop.delay = s.timer.slotTime - (s.timeEnd - s.timeBegin) := by
      unfold TimerLoop.delay loop
      simp only
      apply sizeToInt_of_int
      . omega
      . omega
    omega

/-! ### Executions of one task -/

theorem le_of_mod_eq {n i k : Nat} (hi : i < n) (h : i = (i + 1 + k) % n) : n ≤ k + 1 := by
  have hmod : i + (k + 1) ≡ i + 0 [MOD n] := by
    show (i + (k + 1)) % n = i % n
    rw [Nat.mod_eq_of_lt hi, Nat.add_comm k 1, ← Nat.add_assoc]
    exact h.symm
  have hzero : k + 1 ≡ 0 [MOD n] := Nat.ModEq.add_left_cancel' i hmod
  exact Nat.le_of_dvd (Nat.succ_pos k) ((Nat.modEq_zero_iff_dvd).mp hzero)

-- `k` ticks at least have passed since the last execution of a task in slot `i`
structure Rare (s : Clocked) (p : TaskPtr) : Prop where
  chain : (s.times p).IsChain fun a b => b = a ∨ a + s.timer.revolution ≤ b
  since : ∀ b ∈ (s.times p).getLast?, ∀ i, p ∈ s.timer.timeWheel i →
    ∃ (k : Nat) (last : Int), s.last = some last ∧ b + k * s.timer.slotTime ≤ last ∧
      s.timer.wheelIndex = (i + 1 + k) % s.timer.timeNum

variable {c c' : Clocked} {timeBegin : Int} {clock : Nat → Int}

theorem rare_tick (hinv : c.history.Inv) (h : Rare c p)
    (hspaced : ∀ last ∈ c.last, last + c.timer.slotTime ≤ timeBegin)
    : Rare (c.next (.tick timeBegin clock)) p := by
  have hticked := ticked_tick c.timer timeBegin clock
  have hnum : (c.next (.tick timeBegin clock)).timer.timeNum = c.timer.timeNum := hticked.timeNum
  have hslot : (c.next (.tick timeBegin clock)).timer.slotTime = c.timer.slotTime :=
    congrArg (1000 / ·) hticked.timeNum
  have hwheel : (c.next (.tick timeBegin clock)).timer.wheelIndex
      = (c.timer.wheelIndex + 1) % c.timer.timeNum := hticked.wheelIndex
  have htimes := c.times_tick_eq timeBegin clock p
  by_cases hcount : (c.timer.scan timeBegin).1.count p = 0
  . rw [hcount, List.replicate_zero, List.append_nil] at htimes
    constructor
    . unfold revolution
      rw [htimes, hnum, hslot]
      exact h.chain
    . intro b hb i hi
      rw [htimes] at hb
      rcases h.since b hb i ((hticked.sublist i).mem hi) with ⟨k, last, hlast, hle, hk⟩
      refine ⟨k + 1, timeBegin, rfl, ?_, ?_⟩
      . have hnext := hspaced last hlast
        rw [hslot]
        push_cast
        rw [Int.add_mul, Int.one_mul]
        omega
      . rw [hwheel, hnum, hk, Nat.mod_add_mod]
        rfl
  . have hmem : p ∈ c.timer.timeWheel c.timer.wheelIndex := by
      by_contra hnot
      exact hcount (Clocked.count_scan_of_notMem hnot)
    constructor
    . rw [htimes]
      refine List.isChain_append.mpr ⟨?_, List.isChain_replicate_of_rel _ (Or.inl rfl), ?_⟩
      . unfold revolution
        rw [hnum, hslot]
        exact h.chain
      . intro a ha b hb
        have hb : b = timeBegin := List.eq_of_mem_replicate (List.mem_of_mem_head? hb)
        rcases h.since a ha _ hmem with ⟨k, last, hlast, hle, hk⟩
        have hrounds := le_of_mod_eq c.timer.wheelIndex_lt hk
        have hnext := hspaced last hlast
        have hturn : (c.timer.timeNum : Int) * c.timer.slotTime ≤ (k + 1) * c.timer.slotTime :=
          Int.mul_le_mul_of_nonneg_right (by omega) (Int.natCast_nonneg _)
        rw [Int.add_mul, Int.one_mul] at hturn
        right
        unfold revolution
        rw [hb, hnum, hslot]
        omega
    . intro b hb i hi
      have hold := (hticked.sublist i).mem hi
      have hi : i = c.timer.wheelIndex := hinv.single i _ p hold hmem
      have hb : b = timeBegin := by
        rw [htimes, List.getLast?_append, List.getLast?_replicate, if_neg hcount] at hb
        exact (Option.some.inj hb).symm
      refine ⟨0, timeBegin, rfl, by rw [hb]; simp, ?_⟩
      rw [hwheel, hnum, hi, Nat.add_zero]

-- a new task has not been executed, the others are where they were
theorem rare_call (hkept : c.Kept) {e : Event} (he : e.isTick = false) (h : Rare c p)
    : Rare (c.next e) p := by
  have hold : (c.next e).timer.timeNum = c.timer.timeNum ∧
      (c.next e).timer.wheelIndex = c.timer.wheelIndex ∧
      ∀ i, p ∈ (c.next e).timer.timeWheel i → p ∈ c.timer.timeWheel i ∨ c.times p = [] := by
    cases Clocked.called_next c he with
    | added timer slot =>
      rw [timer]
      refine ⟨rfl, rfl, ?_⟩
      intro i hi
      rcases (History.mem_added _ _ _).mp hi with hi | ⟨_, hnew⟩
      . exact Or.inl hi
      . exact Or.inr (Clocked.times_of_unallocated hkept.allocated (Nat.le_of_eq hnew.symm))
    | same timer =>
      rw [timer]
      exact ⟨rfl, rfl, fun i hi => Or.inl hi⟩
  rcases hold with ⟨hnum, hwheel, hmem⟩
  have hslot : (c.next e).timer.slotTime = c.timer.slotTime := congrArg (1000 / ·) hnum
  constructor
  . unfold revolution
    rw [Clocked.times_next c he, hnum, hslot]
    exact h.chain
  . intro b hb i hi
    rw [Clocked.times_next c he] at hb
    rw [hnum, hwheel, hslot, Clocked.last_next c he]
    rcases hmem i hi with hi | hnil
    . exact h.since b hb i hi
    . rw [hnil] at hb
      cases hb

/-! ### Runs -/

structure Inv (s : Pacing) : Prop where
  kept : s.clocked.Kept
  begin_le : s.timeBegin ≤ s.timeEnd
  last : ∀ last ∈ s.clocked.last, last = s.timeBegin
  rare : ∀ p, Rare s.clocked p

theorem inv_start (timeInterval : Nat) (hpos : 0 < timeInterval) (hle : timeInterval ≤ 1000)
    : (start timeInterval hpos hle).Inv where
  kept := Clocked.kept_start timeInterval hpos hle
  begin_le := Int.le_refl 0
  last last hlast := by cases hlast
  rare p := ⟨List.IsChain.nil, fun b hb => by cases hb⟩

theorem Inv.step {e : LoopEvent} (h : s.Inv) (hclock : s.ClockAdvances e) (hstep : Step s e s')
    : s'.Inv := by
  cases e with
  | call e =>
    unfold Step Pacing.step at hstep
    simp only at hstep
    split at hstep
    . cases hstep
    . rename_i he
      cases hstep
      have he : e.isTick = false := Bool.eq_false_iff.mpr he
      refine ⟨h.kept.call he, h.begin_le, ?_, fun p => rare_call h.kept he (h.rare p)⟩
      show ∀ last ∈ (s.clocked.next e).last, last = s.timeBegin
      rw [Clocked.last_next s.clocked he]
      exact h.last
  | round r =>
    rcases step_round hstep with ⟨hdelay, rfl⟩
    have hspaced := spaced_of_round h.begin_le hdelay hclock
    refine ⟨h.kept.tick, hspaced.2, ?_, ?_⟩
    . intro last hlast
      exact (Option.some.inj hlast).symm
    . intro p
      apply rare_tick h.kept.history (h.rare p)
      intro last hlast
      rw [h.last last hlast]
      exact hspaced.1

/--
As long as the clock is not set back, every round begins at least the width of a slot after the last
one, whatever is added, removed and executed, and two executions of a task one after the other are
either in the same round or at least a revolution of the wheel apart.
-/
theorem paced_of_run {timeInterval : Nat} {hpos : 0 < timeInterval} {hle : timeInterval ≤ 1000}
    {es : List LoopEvent} (h : Run Step ClockAdvances (start timeInterval hpos hle) es s)
    : (∀ r s', s.ClockAdvances (.round r) → Step s (.round r) s' →
        s.timeBegin + s.timer.slotTime ≤ r.timeBegin) ∧
      ∀ p, (s.clocked.times p).IsChain fun a b => b = a ∨ a + s.timer.revolution ≤ b := by
  have hs : s.Inv := by
    apply h.invariant (inv_start timeInterval hpos hle)
    intro s e s' hs hclock hstep
    exact hs.step hclock hstep
  refine ⟨?_, fun p => (hs.rare p).chain⟩
  intro r s' hclock hstep
  exact (spaced_of_round hs.begin_le (step_round hstep).1 hclock).1

-- the task asks for a period of 10 ms, the wheel of two slots takes 1000 ms for a revolution
def impatient : List LoopEvent :=
  [.call (.addPriodTask false 10 1 0), .round ⟨[0, 200, 500], 500, fun _ => 501, 502⟩,
    .round ⟨[502, 1000], 1001, fun _ => 1001, 1001⟩, .round ⟨[1001, 1501], 1501, fun _ => 1501, 1502⟩]

theorem paced_of_run_impatient
    : ∃ s,
        Run Step ClockAdvances (start 500 (by decide) (by decide)) impatient s ∧
        s.clocked.times 0 = [500, 1501] ∧
        (∀ r s', s.ClockAdvances (.round r) → Step s (.round r) s' →
          s.timeBegin + s.timer.slotTime ≤ r.timeBegin) ∧
        ∀ p, (s.clocked.times p).IsChain fun a b => b = a ∨ a + s.timer.revolution ≤ b := by
  have hexecute : (Run.execute step ClockAdvances (start 500 (by decide) (by decide)) impatient).map
      (fun s => s.clocked.times 0) = some [500, 1501] := by
    decide +kernel
  rcases Option.map_eq_some_iff.mp hexecute with ⟨s, hs, htimes⟩
  have hrun : Run Step ClockAdvances (start 500 (by decide) (by decide)) impatient s :=
    Run.of_execute (fun _ _ _ hstep => hstep) hs
  exact ⟨s, hrun, htimes, paced_of_run hrun⟩

end Pacing
end Timer
end Fish
