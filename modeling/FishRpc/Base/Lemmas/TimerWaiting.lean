import FishRpc.Base.Lemmas.TimerFate

/-!
This module contains how long a one-shot task waits behind others. A tick skips due tasks, but a tick
that leaves one of them behind has erased one in front of it, and new tasks are put behind all others.
So a task is executed at the latest in one revolution of the wheel for each one-shot task in front of
it and one more.
-/

namespace Fish
namespace Timer

-- the one-shot tasks in front of `p` in the slot `i`
def ahead (t : Timer) (i : Nat) (p : TaskPtr) : Nat :=
  EraseWalk.ahead t.isRepeatable p (t.timeWheel i)

-- the ticks until the wheel is at the slot `i`
def distance (t : Timer) (i : Nat) : Nat :=
  if t.wheelIndex ≤ i then i - t.wheelIndex else i + t.timeNum - t.wheelIndex

-- the ticks that can leave `p` behind in the slot `i`
def ticksLeft (t : Timer) (i : Nat) (p : TaskPtr) : Nat := t.ahead i p * t.timeNum + t.distance i

theorem distance_lt (t : Timer) {i : Nat} (hi : i < t.timeNum) : t.distance i < t.timeNum := by
  unfold distance
  split <;> omega

theorem ticksLeft_lt (t : Timer) {i : Nat} (hi : i < t.timeNum) (p : TaskPtr)
    : t.ticksLeft i p < (t.ahead i p + 1) * t.timeNum := by
  have hlt := t.distance_lt hi
  rw [ticksLeft, Nat.succ_mul]
  omega

theorem distance_tick (t : Timer) (timeBegin : Int) (clock : Nat → Int) {i : Nat}
    (hi : i < t.timeNum)
    : (t.tick timeBegin clock).1.distance i + 1
        =
      if i = t.wheelIndex then t.timeNum else t.distance i := by
  have hticked := ticked_tick t timeBegin clock
  have hlt := t.wheelIndex_lt
  unfold distance
  rw [hticked.timeNum, hticked.wheelIndex]
  by_cases hlast : t.wheelIndex + 1 = t.timeNum
  . rw [hlast, Nat.mod_self]
    split_ifs <;> omega
  . rw [Nat.mod_eq_of_lt (by omega)]
    split_ifs <;> omega

-- the wheel has come nearer, or a task in front of `p` is gone
theorem ticksLeft_tick {t : Timer} {timeBegin : Int} (clock : Nat → Int) {i : Nat} {p : TaskPtr}
    (hi : i < t.timeNum) (hnodup : (t.timeWheel i).Nodup) (honce : t.isRepeatable p = false)
    (hdue : t.isTimeOut timeBegin p = true)
    (hleft : p ∈ (t.tick timeBegin clock).1.timeWheel i)
    : (t.tick timeBegin clock).1.ticksLeft i p < t.ticksLeft i p := by
  have hticked := ticked_tick t timeBegin clock
  have hdistance := t.distance_tick timeBegin clock hi
  have hrepeatable : (t.tick timeBegin clock).1.isRepeatable = t.isRepeatable :=
    funext hticked.repeatable
  unfold ticksLeft ahead
  rw [hrepeatable, hticked.timeNum]
  rw [tick_timeWheel, scan_eq] at hleft ⊢
  by_cases hcurrent : i = t.wheelIndex
  . subst hcurrent
    simp only [Function.update_self] at hleft ⊢
    rw [if_pos rfl] at hdistance
    have hlt := EraseWalk.ahead_walk_lt hdue honce _ hnodup hleft
    have hmul := Nat.mul_le_mul_right t.timeNum (Nat.succ_le_of_lt hlt)
    rw [Nat.succ_mul] at hmul
    unfold isRepeatable at hmul ⊢
    omega
  . simp only [Function.update_of_ne hcurrent]
    rw [if_neg hcurrent] at hdistance
    omega

-- a new task is behind the others
theorem ticksLeft_added {t : Timer} (task : TimerTask) (index : Nat) (map : Int → Option TaskPtr)
    {i : Nat} {p : TaskPtr} (hp : p ∈ t.timeWheel i) (hnew : t.next ∉ t.timeWheel i)
    : (History.added t task index map).ticksLeft i p = t.ticksLeft i p := by
  have hrepeatable : ∀ q ∈ t.timeWheel i,
      (History.added t task index map).isRepeatable q = t.isRepeatable q := by
    intro q hq
    have hne : q ≠ t.next := by
      rintro rfl
      exact hnew hq
    exact congrArg TimerTask.repeatable (History.tasks_added_of_ne index hne)
  have hahead : (History.added t task index map).ahead i p = t.ahead i p := by
    refine Eq.trans ?_ (EraseWalk.ahead_congr hrepeatable)
    by_cases hi : i = index
    . subst hi
      have hwheel : (History.added t task i map).timeWheel i = t.timeWheel i ++ [t.next] :=
        Function.update_self ..
      unfold ahead
      rw [hwheel, EraseWalk.ahead_append hp]
    . have hwheel : (History.added t task index map).timeWheel i = t.timeWheel i :=
        Function.update_of_ne hi ..
      unfold ahead
      rw [hwheel]
  unfold ticksLeft
  rw [hahead]
  rfl

def Event.timeBegin? : Event → Option Int
  | .tick timeBegin _ => some timeBegin
  | _ => none

namespace Clocked

variable {s s' : Clocked} {p : TaskPtr} {i : Nat}

structure Waiting (s : Clocked) (i : Nat) (p : TaskPtr) : Prop where
  once : s.OneShot p
  slot : i < s.timer.timeNum
  mem : p ∈ s.timer.timeWheel i
  times : s.times p = []

-- the due time of `p` is over at each tick
def Late (p : TaskPtr) (s : Clocked) (e : Event) : Prop :=
  ∀ timeBegin ∈ e.timeBegin?, (s.timer.tasks p).timePoint ≤ timeBegin

/-! ### Steps -/

theorem OneShot.next (h : s.OneShot p) (e : Event) : (s.next e).OneShot p := by
  cases he : e.isTick with
  | true =>
    cases e with
    | tick timeBegin clock =>
      have hticked := ticked_tick s.timer timeBegin clock
      exact ⟨Nat.lt_of_lt_of_eq h.allocated hticked.next.symm, (hticked.repeatable p).trans h.once⟩
    | _ => cases he
  | false =>
    cases called_next s he with
    | same timer =>
      constructor <;> rw [timer]
      . exact h.allocated
      . exact h.once
    | added timer slot =>
      constructor <;> rw [timer]
      . exact Nat.lt_succ_of_lt h.allocated
      . rw [History.tasks_added_of_ne _ (Nat.ne_of_lt h.allocated)]
        exact h.once

theorem times_next_ne_nil (h : s.times p ≠ []) (e : Event) : (s.next e).times p ≠ [] := by
  cases he : e.isTick with
  | true =>
    cases e with
    | tick timeBegin clock =>
      rw [times_tick_eq]
      exact List.append_ne_nil_of_left_ne_nil h _
    | _ => cases he
  | false =>
    rw [times_next s he]
    exact h

theorem Waiting.tick {timeBegin : Int} {clock : Nat → Int} (h : s.Waiting i p) (hkept : s.Kept)
    (hdue : (s.timer.tasks p).timePoint ≤ timeBegin)
    : (s.next (.tick timeBegin clock)).times p ≠ [] ∨
        (s.next (.tick timeBegin clock)).Waiting i p ∧
          (s.next (.tick timeBegin clock)).timer.ticksLeft i p < s.timer.ticksLeft i p := by
  have hticked := ticked_tick s.timer timeBegin clock
  have honce := h.once.next (.tick timeBegin clock)
  cases hkept.tick.fate p honce with
  | @waiting j _ mem times =>
    have hj : j = i := hkept.history.single j i p ((hticked.sublist j).mem mem) h.mem
    rw [hj] at mem
    refine Or.inr ⟨⟨honce, Nat.lt_of_lt_of_eq h.slot hticked.timeNum.symm, mem, times⟩, ?_⟩
    apply ticksLeft_tick clock h.slot (hkept.history.nodup i) h.once.once (decide_eq_true hdue) mem
  | executed _ times _ =>
    left
    rw [times]
    exact List.cons_ne_nil _ _

theorem Waiting.call {e : Event} (he : e.isTick = false) (h : s.Waiting i p) (hkept : s.Kept)
    : (s.next e).Waiting i p ∧ (s.next e).timer.ticksLeft i p = s.timer.ticksLeft i p := by
  have htimes := (times_next s he p).trans h.times
  cases called_next s he with
  | same timer =>
    refine ⟨⟨h.once.next e, ?_, ?_, htimes⟩, ?_⟩
    . rw [timer]
      exact h.slot
    . rw [timer]
      exact h.mem
    . rw [timer]
      rfl
  | added timer slot =>
    have hnew : s.timer.next ∉ s.timer.timeWheel i := by
      intro hin
      exact Nat.lt_irrefl _ (hkept.history.allocated i _ hin)
    refine ⟨⟨h.once.next e, ?_, ?_, htimes⟩, ?_⟩
    . rw [timer]
      exact h.slot
    . rw [timer]
      exact (History.mem_added _ i p).mpr (Or.inl h.mem)
    . rw [timer]
      apply ticksLeft_added _ _ _ h.mem hnew

theorem Waiting.next {e : Event} (h : s.Waiting i p) (hkept : s.Kept) (hlate : Late p s e)
    : (s.next e).times p ≠ [] ∨
        (s.next e).Waiting i p ∧
          (s.next e).timer.ticksLeft i p + e.isTick.toNat ≤ s.timer.ticksLeft i p := by
  cases he : e.isTick with
  | true =>
    cases e with
    | tick timeBegin clock => exact h.tick hkept (hlate timeBegin rfl)
    | _ => cases he
  | false =>
    rcases h.call he hkept with ⟨hwaiting, hleft⟩
    exact Or.inr ⟨hwaiting, Nat.le_of_eq hleft⟩

/-! ### Runs -/

/--
A one-shot task in a slot is executed, once, in any later run of calls and ticks that has a
revolution of the wheel for each one-shot task in front of it and one more, if it is due at the ticks
of that run.
-/
theorem executed_of_ticks {timeInterval : Nat} {hpos : 0 < timeInterval}
    {hle : timeInterval ≤ 1000} {es es' : List Event}
    (h : Run (Run.Next next) Run.Always (start timeInterval hpos hle) es s) (hp : s.OneShot p)
    (hmem : p ∈ s.timer.timeWheel i) (h' : Run (Run.Next next) (Late p) s es' s')
    (hticks : (s.timer.ahead i p + 1) * s.timer.timeNum ≤ es'.countP Event.isTick)
    : ∃ b, s'.times p = [b] ∧ (s'.timer.tasks p).timePoint ≤ b := by
  have hkept : s.Kept := by
    apply h.invariant (kept_start timeInterval hpos hle)
    intro s e s' hs _ hstep
    rw [hstep]
    exact hs.next e
  have hwaiting : s.Waiting i p := by
    cases hkept.fate p hp with
    | @waiting j slot mem times =>
      have hj : j = i := hkept.history.single j i p mem hmem
      exact ⟨hp, hj ▸ slot, hmem, times⟩
    | executed gone _ _ => exact absurd hmem (gone i)
  have hrun : (s'.Kept ∧ s'.OneShot p ∧ s'.times p ≠ []) ∨
      (s'.Kept ∧ s'.Waiting i p) ∧
        s'.timer.ticksLeft i p + es'.countP Event.isTick
          ≤
        s.timer.ticksLeft i p + 0 * es'.countP fun _ => false := by
    apply h'.goal_or_cost_le ⟨hkept, hwaiting⟩
    . rintro s e s' ⟨hkept, honce, hne⟩ hstep
      rw [hstep]
      exact ⟨hkept.next e, honce.next e, times_next_ne_nil hne e⟩
    . rintro s e s' ⟨hkept, hwaiting⟩ hlate hstep
      rw [hstep]
      rcases hwaiting.next hkept hlate with hne | ⟨hwaiting', hle⟩
      . exact Or.inl ⟨hkept.next e, hwaiting.once.next e, hne⟩
      . refine Or.inr ⟨⟨hkept.next e, hwaiting'⟩, ?_⟩
        omega
  rcases hrun with ⟨hkept', honce, hne⟩ | ⟨_, hle⟩
  . cases hkept'.fate p honce with
    | waiting _ _ times => exact absurd times hne
    | executed _ times due => exact ⟨_, times, due⟩
  . have hlt := s.timer.ticksLeft_lt hwaiting.slot p
    omega

instance (p : TaskPtr) (s : Clocked) (e : Event) : Decidable (Late p s e) :=
  inferInstanceAs (Decidable (∀ timeBegin ∈ e.timeBegin?, (s.timer.tasks p).timePoint ≤ timeBegin))

-- the second of two due tasks waits for another revolution
def second : List Event × List Event :=
  ([.addOnceTask false 5 0, .addOnceTask false 5 0],
    [.tick 5 fun _ => 5, .addOnceTask false 5 5, .tick 500 fun _ => 500, .tick 1000 fun _ => 1000,
      .tick 1500 fun _ => 1500])

theorem executed_of_ticks_second
    : ∃ s s',
        Run (Run.Next next) Run.Always (start 500 (by decide) (by decide)) second.1 s ∧
        Run (Run.Next next) (Late 1) s second.2 s' ∧ s.timer.ahead 0 1 = 1 ∧
        ∃ b, s'.times 1 = [b] ∧ (s'.timer.tasks 1).timePoint ≤ b := by
  have hrun : Run (Run.Next next) Run.Always (start 500 (by decide) (by decide)) second.1
      (second.1.foldl next (start 500 (by decide) (by decide))) := Run.foldl next _ second.1
  generalize hs : second.1.foldl next (start 500 (by decide) (by decide)) = s at hrun
  have hexecute : (Run.execute (fun s e => some (next s e)) (Late 1) s second.2).isSome = true := by
    subst hs
    decide +kernel
  rcases Option.isSome_iff_exists.mp hexecute with ⟨s', hs'⟩
  have hrun' : Run (Run.Next next) (Late 1) s second.2 s' :=
    Run.of_execute (fun _ _ _ hnext => (Option.some.inj hnext).symm) hs'
  have hahead : s.timer.ahead 0 1 = 1 ∧ s.timer.timeNum = 2 ∧ s.OneShot 1 ∧
      1 ∈ s.timer.timeWheel 0 := by
    subst hs
    exact ⟨by decide +kernel, by decide, ⟨by decide +kernel, by decide +kernel⟩, by decide +kernel⟩
  rcases hahead with ⟨hone, hnum, honce, hmem⟩
  refine ⟨s, s', hrun, hrun', hone, executed_of_ticks hrun honce hmem hrun' ?_⟩
  rw [hone, hnum]
  decide

end Clocked
end Timer
end Fish
