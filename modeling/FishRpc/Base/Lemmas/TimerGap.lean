import FishRpc.Base.Lemmas.TimerTick
import Mathlib.Data.List.Chain

/-!
This module contains the times at which a periodic task is executed. The task stays in its slot and
its due time is never changed, so once it is due it is executed in each revolution of the wheel,
whatever its period is. `Clocked` records the ticks, the executions and the periods.
-/

namespace Fish
namespace Timer

open History (Periodic)

-- `last` is the time of the last tick, `periods` are the tasks that `addPriodTask` has added
structure Clocked where
  history : History
  last : Option Int
  executed : List Executed
  periods : List (TaskPtr × Int)

def revolution (t : Timer) : Int := t.timeNum * t.slotTime

namespace Clocked

def start (timeInterval : Nat) (hpos : 0 < timeInterval) (hle : timeInterval ≤ 1000) : Clocked where
  history := .start timeInterval hpos hle
  last := none
  executed := []
  periods := []

abbrev timer (s : Clocked) : Timer := s.history.timer

def next (s : Clocked) (e : Event) : Clocked :=
  match e with
  | .addPriodTask needTime time id now =>
    { s with
      history := s.history.next e
      periods :=
        if (s.timer.addPriodTask needTime time id now).1 then
          s.periods ++ [(s.timer.next, time)]
        else
          s.periods }
  | .tick timeBegin clock =>
    { s with
      history := s.history.next e
      last := some timeBegin
      executed := s.executed ++ (s.timer.tick timeBegin clock).2 }
  | .addOnceTask _ _ _ | .removePriodTask _ => { s with history := s.history.next e }

def times (s : Clocked) (p : TaskPtr) : List Int :=
  (s.executed.filter fun e => e.task = p).map Executed.timeBegin

-- any two consecutive executions of the task are `gap` milliseconds apart
def Apart (s : Clocked) (p : TaskPtr) (gap : Int) : Prop :=
  (s.times p).IsChain fun a b => b = a + gap

def Spaced (s : Clocked) : Event → Prop
  | .tick timeBegin _ => ∀ last ∈ s.last, timeBegin = last + s.timer.slotTime
  | _ => True

def NothingSkipped (s : Clocked) : Event → Prop
  | .tick timeBegin _ => s.timer.NothingSkipped timeBegin
  | _ => True

def Regular (s : Clocked) (e : Event) : Prop := s.Spaced e ∧ s.NothingSkipped e

-- `k` ticks have passed since the last execution of the task in slot `i`
structure Turning (s : Clocked) (p : TaskPtr) (i : Nat) : Prop where
  periodic : Periodic s.timer i p
  slot : i < s.timer.timeNum
  apart : s.Apart p s.timer.revolution
  since : ∀ b ∈ (s.times p).getLast?, (s.timer.tasks p).timePoint ≤ b ∧
    ∃ k : Nat, k < s.timer.timeNum ∧ s.last = some (b + k * s.timer.slotTime) ∧
      s.timer.wheelIndex = (i + 1 + k) % s.timer.timeNum

structure Inv (s : Clocked) : Prop where
  history : s.history.Inv
  allocated : ∀ e ∈ s.executed, e.task < s.timer.next
  turning : ∀ pe ∈ s.periods, ∃ i, s.Turning pe.1 i

variable {s s' : Clocked} {p : TaskPtr}

/-! ### Adding and removing -/

-- tasks are added and their number grows, the wheel does not turn
structure Grown (t t' : Timer) : Prop where
  timeNum : t'.timeNum = t.timeNum
  wheelIndex : t'.wheelIndex = t.wheelIndex
  next : t.next ≤ t'.next
  tasks : ∀ p < t.next, t'.tasks p = t.tasks p
  wheel : ∀ i, ∀ p ∈ t.timeWheel i, p ∈ t'.timeWheel i

theorem grown_refl (t : Timer) : Grown t t :=
  ⟨rfl, rfl, Nat.le_refl _, fun _ _ => rfl, fun _ _ hp => hp⟩

theorem grown_added (t : Timer) (task : TimerTask) (index : Nat) (map : Int → Option TaskPtr)
    : Grown t (History.added t task index map) := by
  refine ⟨rfl, rfl, Nat.le_succ _, ?_, ?_⟩
  . intro p hp
    apply History.tasks_added_of_ne index (Nat.ne_of_lt hp)
  . intro i p hp
    exact (History.mem_added index i p).mpr (Or.inl hp)

theorem times_of_unallocated (h : ∀ e ∈ s.executed, e.task < s.timer.next) (hp : s.timer.next ≤ p)
    : s.times p = [] := by
  unfold times
  rw [List.map_eq_nil_iff, List.filter_eq_nil_iff]
  intro e he heq
  have hlt := h e he
  rw [of_decide_eq_true heq] at hlt
  exact Nat.not_lt.mpr hp hlt

theorem Turning.grown {i : Nat} (h : s.Turning p i) (hp : p < s.timer.next)
    (hgrown : Grown s.timer s'.timer) (hlast : s'.last = s.last) (htimes : s'.times p = s.times p)
    : s'.Turning p i := by
  have htask := hgrown.tasks p hp
  have hslotTime : s'.timer.slotTime = s.timer.slotTime := by
    unfold slotTime
    rw [hgrown.timeNum]
  constructor
  . refine ⟨hgrown.wheel i p h.periodic.1, ?_⟩
    rw [htask]
    apply h.periodic.2
  . rw [hgrown.timeNum]
    apply h.slot
  . unfold Apart revolution
    rw [htimes, hgrown.timeNum, hslotTime]
    apply h.apart
  . rw [htimes, htask, hgrown.timeNum, hgrown.wheelIndex, hslotTime, hlast]
    apply h.since

theorem grown_addPriodTask (t : Timer) (needTime : Bool) (time id now : Int)
    : Grown t (t.addPriodTask needTime time id now).2 := by
  unfold addPriodTask
  split
  . apply grown_refl
  . apply grown_added

theorem grown_removePriodTask (t : Timer) (id : Int) : Grown t (t.removePriodTask id).2 := by
  unfold removePriodTask
  split
  . apply grown_refl
  . exact ⟨rfl, rfl, Nat.le_refl _, fun _ _ => rfl, fun _ _ hp => hp⟩

theorem Inv.turning_lt (h : s.Inv) {pe : TaskPtr × Int} (hpe : pe ∈ s.periods)
    : pe.1 < s.timer.next := by
  rcases h.turning pe hpe with ⟨i, hturning⟩
  apply h.history.allocated i pe.1 hturning.periodic.1

theorem Inv.grown (h : s.Inv) (hhistory : s'.history.Inv) (hgrown : Grown s.timer s'.timer)
    (hlast : s'.last = s.last) (hexecuted : s'.executed = s.executed)
    (hnew : ∀ pe ∈ s'.periods, pe ∈ s.periods ∨
      s.timer.next ≤ pe.1 ∧ ∃ i < s.timer.timeNum, Periodic s'.timer i pe.1) : s'.Inv := by
  have htimes (p : TaskPtr) : s'.times p = s.times p := by
    unfold times
    rw [hexecuted]
  constructor
  . apply hhistory
  . rw [hexecuted]
    intro e he
    apply Nat.lt_of_lt_of_le (h.allocated e he) hgrown.next
  . intro pe hpe
    rcases hnew pe hpe with hold | ⟨hnext, i, hi, hperiodic⟩
    . rcases h.turning pe hold with ⟨i, hturning⟩
      exact ⟨i, hturning.grown (h.turning_lt hold) hgrown hlast (htimes pe.1)⟩
    . have hnil : s'.times pe.1 = [] := (htimes pe.1).trans (times_of_unallocated h.allocated hnext)
      refine ⟨i, hperiodic, ?_, ?_, ?_⟩
      . rw [hgrown.timeNum]
        apply hi
      . unfold Apart
        rw [hnil]
        apply List.IsChain.nil
      . rw [hnil]
        rintro b ⟨⟩

theorem periodic_addPriodTask {t : Timer} {needTime : Bool} {time id now : Int}
    (hnew : (t.addPriodTask needTime time id now).1 = true)
    : ∃ i < t.timeNum, Periodic (t.addPriodTask needTime time id now).2 i t.next := by
  unfold addPriodTask at hnew ⊢
  split at hnew
  . cases hnew
  . refine ⟨t.slot time, t.slot_lt time, ?_, ?_⟩
    . exact (@History.mem_added t _ _ _ _ _).mpr (Or.inr ⟨rfl, rfl⟩)
    . exact congrArg TimerTask.repeatable (History.tasks_added_self _)

/-! ### Ticks -/

theorem filter_task {executed : List Executed} {timeOutVec : List TaskPtr} {timeBegin : Int}
    (h : executed.map (fun e => (e.task, e.timeBegin))
      =
      timeOutVec.map fun timer => (timer, timeBegin))
    (p : TaskPtr)
    : (executed.filter fun e => e.task = p).map Executed.timeBegin
        =
      List.replicate (timeOutVec.count p) timeBegin := by
  have hpairs := congrArg (fun l => (l.filter fun pair => pair.1 = p).map Prod.snd) h
  simp only [List.filter_map, List.map_map, Function.comp_def] at hpairs
  rw [hpairs, List.filter_eq, List.map_replicate]

theorem times_tick (h : s.Inv) {timeBegin : Int} (clock : Nat → Int)
    (hskip : s.timer.NothingSkipped timeBegin) (p : TaskPtr)
    : (s.next (.tick timeBegin clock)).times p
        =
      s.times p ++
        if p ∈ s.timer.current ∧ s.timer.isTimeOut timeBegin p = true then [timeBegin] else [] := by
  have hexecuted := (tickExact_of_nothingSkipped clock hskip).executed
  have hpairs := (s.timer.scan timeBegin).2.workAll_executed timeBegin clock
    (s.timer.scan timeBegin).1
  have hnodup : (s.timer.current.filter (s.timer.isTimeOut timeBegin)).Nodup :=
    (h.history.nodup s.timer.wheelIndex).filter _
  rw [tick_executed] at hexecuted
  unfold times next
  rw [List.filter_append, List.map_append]
  rw [tick_eq, filter_task hpairs, hexecuted]
  congr 1
  split
  . rename_i hmem
    rw [List.count_eq_one_of_mem hnodup (List.mem_filter.mpr hmem)]
    rfl
  . rename_i hmem
    rw [List.count_eq_zero_of_not_mem (fun hp => hmem (List.mem_filter.mp hp))]
    rfl

-- the number of ticks since the last execution, when the wheel is at the slot again or not
theorem wheel_cases {n i k w : Nat} (hi : i < n) (hk : k < n) (hw : w = (i + 1 + k) % n)
    : w = i ∧ k + 1 = n ∨ w ≠ i ∧ k + 1 < n ∧ (w + 1) % n = (i + 1 + (k + 1)) % n := by
  have hnext : (w + 1) % n = (i + 1 + (k + 1)) % n := by
    rw [hw, Nat.mod_add_mod]
    rfl
  by_cases hlast : k + 1 = n
  . have heq : i + 1 + k = i + n := by omega
    rw [heq, Nat.add_mod_right, Nat.mod_eq_of_lt hi] at hw
    exact Or.inl ⟨hw, hlast⟩
  . refine Or.inr ⟨?_, by omega, hnext⟩
    intro heq
    rw [heq] at hw
    rcases Nat.lt_or_ge (i + 1 + k) n with hlt | hge
    . rw [Nat.mod_eq_of_lt hlt] at hw
      omega
    . rw [Nat.mod_eq_sub_mod hge, Nat.mod_eq_of_lt (by omega)] at hw
      omega

-- what a tick leaves as it is, for a task in slot `i`
structure Ticks (s s' : Clocked) (timeBegin : Int) (p : TaskPtr) (i : Nat) : Prop where
  periodic : Periodic s'.timer i p
  timeNum : s'.timer.timeNum = s.timer.timeNum
  slotTime : s'.timer.slotTime = s.timer.slotTime
  timePoint : (s'.timer.tasks p).timePoint = (s.timer.tasks p).timePoint
  wheelIndex : s'.timer.wheelIndex = (s.timer.wheelIndex + 1) % s.timer.timeNum
  last : s'.last = some timeBegin

theorem ticks_tick {i : Nat} (h : Periodic s.timer i p) (timeBegin : Int) (clock : Nat → Int)
    : Ticks s (s.next (.tick timeBegin clock)) timeBegin p i := by
  have hticked := ticked_tick s.timer timeBegin clock
  constructor
  . exact ⟨hticked.keep i p h.1 h.2, (hticked.repeatable p).trans h.2⟩
  . apply hticked.timeNum
  . exact congrArg (1000 / ·) hticked.timeNum
  . apply hticked.timePoint
  . apply hticked.wheelIndex
  . rfl

theorem Ticks.revolution {i : Nat} {timeBegin : Int} (h : Ticks s s' timeBegin p i)
    : s'.timer.revolution = s.timer.revolution := by
  unfold Timer.revolution
  rw [h.timeNum, h.slotTime]

-- the tick after `k` others: the wheel is at slot `i` again, or not yet
theorem Turning.later {i : Nat} {timeBegin b : Int} {clock : Nat → Int} (h : s.Turning p i)
    (hspaced : s.Spaced (.tick timeBegin clock)) (hb : b ∈ (s.times p).getLast?)
    : (s.timer.tasks p).timePoint ≤ b ∧
      ∃ k : Nat, timeBegin = b + (k + 1 : Nat) * s.timer.slotTime ∧
        (s.timer.wheelIndex = i ∧ k + 1 = s.timer.timeNum ∨
          s.timer.wheelIndex ≠ i ∧ k + 1 < s.timer.timeNum ∧
            (s.timer.wheelIndex + 1) % s.timer.timeNum = (i + 1 + (k + 1)) % s.timer.timeNum) := by
  rcases h.since b hb with ⟨hpoint, k, hk, hlast, hwheel⟩
  have htime : timeBegin = b + k * s.timer.slotTime + s.timer.slotTime := hspaced _ hlast
  have hcast : ((k + 1 : Nat) : Int) = k + 1 := rfl
  refine ⟨hpoint, k, ?_, wheel_cases h.slot hk hwheel⟩
  rw [htime, hcast, Int.add_mul, Int.one_mul, Int.add_assoc]

theorem Turning.executed {i : Nat} {timeBegin : Int} {clock : Nat → Int} (h : s.Turning p i)
    (hticks : Ticks s s' timeBegin p i) (hspaced : s.Spaced (.tick timeBegin clock))
    (hwheel : s.timer.wheelIndex = i) (hpoint : (s.timer.tasks p).timePoint ≤ timeBegin)
    (htimes : s'.times p = s.times p ++ [timeBegin]) : s'.Turning p i := by
  constructor
  . apply hticks.periodic
  . rw [hticks.timeNum]
    apply h.slot
  . unfold Apart
    rw [htimes, hticks.revolution]
    refine List.isChain_append.mpr ⟨h.apart, List.IsChain.singleton _, ?_⟩
    intro b hb b' hb'
    cases hb'
    rcases h.later hspaced hb with ⟨_, k, htime, ⟨_, hlast⟩ | ⟨hne, _⟩⟩
    . rw [htime, hlast]
      rfl
    . exact absurd hwheel hne
  . rw [htimes]
    intro b hb
    rw [List.getLast?_concat] at hb
    cases hb
    rw [hticks.timePoint, hticks.timeNum, hticks.slotTime, hticks.wheelIndex, hticks.last, hwheel]
    exact ⟨hpoint, 0, s.timer.timeNum_pos, by simp, rfl⟩

theorem Turning.passed {i : Nat} {timeBegin : Int} {clock : Nat → Int} (h : s.Turning p i)
    (hticks : Ticks s s' timeBegin p i) (hspaced : s.Spaced (.tick timeBegin clock))
    (hnot : ¬(s.timer.wheelIndex = i ∧ (s.timer.tasks p).timePoint ≤ timeBegin))
    (htimes : s'.times p = s.times p) : s'.Turning p i := by
  constructor
  . apply hticks.periodic
  . rw [hticks.timeNum]
    apply h.slot
  . unfold Apart
    rw [htimes, hticks.revolution]
    apply h.apart
  . rw [htimes]
    intro b hb
    rw [hticks.timePoint, hticks.timeNum, hticks.slotTime, hticks.wheelIndex, hticks.last]
    rcases h.later hspaced hb with ⟨hpoint, k, htime, ⟨hwheel, _⟩ | ⟨_, hk, hwheel⟩⟩
    . have hnonneg : (0 : Int) ≤ (k + 1 : Nat) * s.timer.slotTime :=
        Int.mul_nonneg (Int.natCast_nonneg _) (Int.natCast_nonneg _)
      exact absurd ⟨hwheel, by omega⟩ hnot
    . exact ⟨hpoint, k + 1, hk, congrArg some htime, hwheel⟩

theorem Turning.tick {i : Nat} {timeBegin : Int} {clock : Nat → Int} (hinv : s.Inv)
    (h : s.Turning p i) (hregular : s.Regular (.tick timeBegin clock))
    : (s.next (.tick timeBegin clock)).Turning p i := by
  have hticks := ticks_tick h.periodic timeBegin clock
  have htimes := times_tick hinv clock hregular.2 p
  have hmem : p ∈ s.timer.current ↔ s.timer.wheelIndex = i := by
    constructor
    . intro hp
      apply hinv.history.single _ _ p hp h.periodic.1
    . intro heq
      unfold current
      rw [heq]
      apply h.periodic.1
  simp only [hmem, isTimeOut, decide_eq_true_eq] at htimes
  by_cases hdue : s.timer.wheelIndex = i ∧ (s.timer.tasks p).timePoint ≤ timeBegin
  . rw [if_pos hdue] at htimes
    apply h.executed hticks hregular.1 hdue.1 hdue.2 htimes
  . rw [if_neg hdue, List.append_nil] at htimes
    apply h.passed hticks hregular.1 hdue htimes

theorem Inv.tick {timeBegin : Int} {clock : Nat → Int} (h : s.Inv)
    (hregular : s.Regular (.tick timeBegin clock)) : (s.next (.tick timeBegin clock)).Inv := by
  have hticked := ticked_tick s.timer timeBegin clock
  constructor
  . exact h.history.next (.tick timeBegin clock)
  . intro e he
    rw [show (s.next (.tick timeBegin clock)).timer.next = s.timer.next from hticked.next]
    rcases List.mem_append.mp he with he | he
    . apply h.allocated e he
    . apply h.history.allocated _ _ (hticked.executed e he).1
  . intro pe hpe
    rcases h.turning pe hpe with ⟨i, hturning⟩
    exact ⟨i, hturning.tick h hregular⟩

/-! ### Runs -/

theorem inv_start (timeInterval : Nat) (hpos : 0 < timeInterval) (hle : timeInterval ≤ 1000)
    : (start timeInterval hpos hle).Inv := by
  constructor
  . apply History.inv_start
  . intro e he
    cases he
  . intro pe hpe
    cases hpe

theorem history_next (s : Clocked) (e : Event) : (s.next e).history = s.history.next e := by
  cases e <;> rfl

theorem Inv.next {e : Event} (h : s.Inv) (hregular : s.Regular e) : (s.next e).Inv := by
  have hhistory : (s.next e).history.Inv := by
    rw [history_next]
    apply h.history.next
  cases e with
  | addOnceTask needTime time now =>
    refine h.grown hhistory (grown_added _ _ _ _) rfl rfl ?_
    intro pe hpe
    exact Or.inl hpe
  | addPriodTask needTime time id now =>
    refine h.grown hhistory (grown_addPriodTask _ _ _ _ _) rfl rfl ?_
    intro pe hpe
    unfold Clocked.next at hpe
    simp only at hpe
    split at hpe
    . rename_i hnew
      rcases List.mem_append.mp hpe with hpe | hpe
      . exact Or.inl hpe
      . cases List.mem_singleton.mp hpe
        exact Or.inr ⟨Nat.le_refl _, periodic_addPriodTask hnew⟩
    . exact Or.inl hpe
  | removePriodTask id =>
    refine h.grown hhistory (grown_removePriodTask _ _) rfl rfl ?_
    intro pe hpe
    exact Or.inl hpe
  | tick timeBegin clock => apply h.tick hregular

theorem isChain_gap_iff {times : List Int} {gap gap' : Int}
    (h : times.IsChain fun a b => b = a + gap)
    : times.IsChain (fun a b => b = a + gap') ↔ 2 ≤ times.length → gap' = gap := by
  constructor
  . intro h' hlen
    match times with
    | a :: b :: rest =>
      have heq := (List.isChain_cons_cons.mp h).1
      have heq' := (List.isChain_cons_cons.mp h').1
      omega
  . intro heq
    match times with
    | [] => apply List.IsChain.nil
    | [a] => apply List.IsChain.singleton
    | a :: b :: rest =>
      rw [heq (Nat.le_add_left 2 _)]
      apply h

/--
When the ticks are one slot width apart and skip no task, the executions of a periodic task are its
period apart exactly when the period is a revolution of the wheel.
-/
theorem apart_iff {timeInterval : Nat} {hpos : 0 < timeInterval} {hle : timeInterval ≤ 1000}
    {es : List Event} (h : Run (Run.Next next) Regular (start timeInterval hpos hle) es s)
    {period : Int} (hp : (p, period) ∈ s.periods)
    : s.Apart p period ↔ 2 ≤ (s.times p).length → period = s.timer.revolution := by
  have hinv : s.Inv := by
    apply h.invariant (inv_start timeInterval hpos hle)
    intro s e s' hs hregular hstep
    rw [hstep]
    apply hs.next hregular
  rcases hinv.turning _ hp with ⟨i, hturning⟩
  apply isChain_gap_iff hturning.apart

/-! ### A wheel of two slots -/

instance (s : Clocked) (e : Event) : Decidable (s.Spaced e) := by
  cases e <;> unfold Spaced <;> infer_instance

instance (s : Clocked) (e : Event) : Decidable (s.Regular e) := by
  unfold Regular NothingSkipped Timer.NothingSkipped
  cases e <;> infer_instance

def half (period : Int) : Clocked × List Event :=
  (start 500 (by decide) (by decide),
    [.addPriodTask false period 1 0, .tick 500 fun _ => 500, .tick 1000 fun _ => 1000,
      .tick 1500 fun _ => 1500, .tick 2000 fun _ => 2000, .tick 2500 fun _ => 2500])

-- what has been recorded after a run whose steps all meet the condition, and the slot width
def outcome (Meets : Clocked → Event → Prop) [∀ s e, Decidable (Meets s e)] (period : Int)
    : Option (List (TaskPtr × Int) × List Int × Nat) :=
  (Run.execute (fun s e => some (next s e)) Meets (half period).1 (half period).2).map
    fun s => (s.periods, s.times 0, s.timer.slotTime)

theorem run_of_outcome {Meets : Clocked → Event → Prop} [∀ s e, Decidable (Meets s e)]
    {period : Int} {periods : List (TaskPtr × Int)} {times : List Int} {slotTime : Nat}
    (h : outcome Meets period = some (periods, times, slotTime))
    : ∃ s,
        Run (Run.Next next) Meets (half period).1 (half period).2 s ∧ s.periods = periods ∧
        s.times 0 = times ∧ s.timer.slotTime = slotTime := by
  rcases Option.map_eq_some_iff.mp h with ⟨s, hs, heq⟩
  cases heq
  exact ⟨s, Run.of_execute (fun _ _ _ hstep => (Option.some.inj hstep).symm) hs, rfl, rfl, rfl⟩

theorem apart_iff_revolution
    : ∃ s,
        Run (Run.Next next) Regular (half 1000).1 (half 1000).2 s ∧ s.times 0 = [1500, 2500] ∧
        (s.Apart 0 1000 ↔ 2 ≤ (s.times 0).length → 1000 = s.timer.revolution) := by
  have houtcome : outcome Regular 1000 = some ([(0, 1000)], [1500, 2500], 500) := by
    decide +kernel
  rcases run_of_outcome houtcome with ⟨s, hrun, hperiods, htimes, _⟩
  have hp : (0, 1000) ∈ s.periods := by
    rw [hperiods]
    apply List.mem_cons_self
  exact ⟨s, hrun, htimes, apart_iff hrun hp⟩

-- a period of half a revolution, the task is executed once in each revolution
theorem not_apart_half
    : ¬∀ (es : List Event) (s : Clocked) (p : TaskPtr) (period : Int),
        Run (Run.Next next) Spaced (start 500 (by decide) (by decide)) es s →
        (p, period) ∈ s.periods → 0 < period → (s.timer.slotTime : Int) ∣ period →
        s.Apart p period := by
  intro hall
  have houtcome : outcome Spaced 500 = some ([(0, 500)], [500, 1500, 2500], 500) := by
    decide +kernel
  rcases run_of_outcome houtcome with ⟨s, hrun, hperiods, htimes, hslotTime⟩
  have hp : (0, 500) ∈ s.periods := by
    rw [hperiods]
    apply List.mem_cons_self
  have hdvd : (s.timer.slotTime : Int) ∣ 500 := by
    rw [hslotTime]
    apply Int.dvd_refl
  have hapart := hall _ s 0 500 hrun hp (by decide) hdvd
  unfold Apart at hapart
  rw [htimes] at hapart
  have hgap := (List.isChain_cons_cons.mp hapart).1
  omega

end Clocked
end Timer
end Fish
