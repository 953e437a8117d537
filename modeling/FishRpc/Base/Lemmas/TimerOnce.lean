import FishRpc.Base.Lemmas.Timer
import Mathlib.Data.Nat.Find

/-!
This module contains the run of a single task that `addOnceTask` has put into an empty wheel. Its
slot is 0 or 1 whatever the delay is, so the task runs when the wheel comes to that slot for the
first time after the delay is over, which is in time for some positions of the wheel only.
-/

namespace Fish
namespace Timer

-- `scanned` tells that the slot of the wheel index has been scanned and the index not yet advanced,
-- `start` is the time of the first scan after the insertion
structure Once where
  timer : Timer
  needTime : Bool
  time : Int
  now : Int
  scanned : Bool
  start : Int
  clock : Nat → Nat → Int
  empty : ∀ i, timer.timeWheel i = []

namespace Once

variable (o : Once)

def inserted : Timer :=
  let t := o.timer.addOnceTask o.needTime o.time o.now
  if o.scanned then t.advance else t

def tickTime (j : Nat) : Int := o.start + j * (o.timer.slotTime : Int)

-- the timer after `m` ticks and what they have executed
def run : Nat → Timer × List Executed
  | 0 => (o.inserted, [])
  | m + 1 =>
    let (t, executed) := run m
    let (t, executed') := t.tick (o.tickTime m) (o.clock m)
    (t, executed ++ executed')

def due : Int := o.now + o.time

-- the task runs once, at a tick that is not too early and at most the second one after that time
def Timely : Prop :=
  ∃ j,
    (∀ m, (o.run m).2.map (fun e => (e.task, e.timeBegin))
        =
      if j < m then [(o.timer.next, o.tickTime j)] else []) ∧
    o.due ≤ o.tickTime j ∧
    ∀ i, i + 2 ≤ j → o.tickTime i ≤ o.due

def first : Nat := o.timer.wheelIndex + if o.scanned then 1 else 0

def Scans (j : Nat) : Prop := (o.first + j) % o.timer.timeNum = o.timer.slot o.time

instance (j : Nat) : Decidable (o.Scans j) := by
  unfold Scans
  infer_instance

-- the wheel comes to the slot at the first or second tick after the delay
def SlotInTime : Prop :=
  ∃ r, (o.due ≤ o.tickTime r ∧ ∀ i < r, o.tickTime i < o.due) ∧
    (o.Scans r ∨ o.Scans (r + 1) ∨ (o.tickTime r = o.due ∧ o.Scans (r + 2)))

def Fires (j : Nat) : Prop := o.Scans j ∧ o.due ≤ o.tickTime j

instance (j : Nat) : Decidable (o.Fires j) := by
  unfold Fires
  infer_instance

theorem tickTime_succ (j : Nat) : o.tickTime (j + 1) = o.tickTime j + o.timer.slotTime := by
  unfold tickTime
  rw [Int.natCast_succ, Int.add_mul, Int.one_mul, Int.add_assoc]

theorem exists_due : ∃ r, o.due ≤ o.tickTime r := by
  refine ⟨(o.due - o.start).toNat, ?_⟩
  have hpos := o.timer.slotTime_pos
  have hle : ((o.due - o.start).toNat : Int) * 1 ≤ (o.due - o.start).toNat * o.timer.slotTime :=
    Int.mul_le_mul_of_nonneg_left (by omega) (by omega)
  unfold tickTime
  omega

theorem exists_scans (r : Nat) : ∃ j, r ≤ j ∧ o.Scans j := by
  have hslot := o.timer.slot_lt o.time
  have hpos := o.timer.timeNum_pos
  have hmod := Nat.mod_lt (o.first + r) hpos
  refine ⟨r + (o.timer.slot o.time + o.timer.timeNum - (o.first + r) % o.timer.timeNum), ?_, ?_⟩
  . omega
  . unfold Scans
    rw [← Nat.add_assoc]
    rw [← Nat.mod_add_mod]
    have hsum : (o.first + r) % o.timer.timeNum +
        (o.timer.slot o.time + o.timer.timeNum - (o.first + r) % o.timer.timeNum)
          =
        o.timer.slot o.time + o.timer.timeNum := by omega
    rw [hsum]
    rw [Nat.add_mod_right]
    apply Nat.mod_eq_of_lt hslot

theorem tickTime_mono {i j : Nat} (h : i ≤ j) : o.tickTime i ≤ o.tickTime j := by
  have hle : (i : Int) * o.timer.slotTime ≤ j * o.timer.slotTime :=
    Int.mul_le_mul_of_nonneg_right (by omega) (by omega)
  unfold tickTime
  omega

theorem exists_fires : ∃ j, o.Fires j := by
  rcases o.exists_due with ⟨r, hr⟩
  rcases o.exists_scans r with ⟨j, hj, hscans⟩
  exact ⟨j, hscans, Int.le_trans hr (o.tickTime_mono hj)⟩

def firing : Nat := Nat.find o.exists_fires

theorem run_succ (m : Nat)
    : o.run (m + 1)
        =
      let r := (o.run m).1.tick (o.tickTime m) (o.clock m)
      (r.1, (o.run m).2 ++ r.2) := rfl

-- the timer before the task has run and after it has
structure Waiting (m : Nat) (t : Timer) : Prop where
  timeNum : t.timeNum = o.timer.timeNum
  wheelIndex : t.wheelIndex = (o.first + m) % o.timer.timeNum
  self : t.timeWheel (o.timer.slot o.time) = [o.timer.next]
  others : ∀ i, i ≠ o.timer.slot o.time → t.timeWheel i = []
  timePoint : (t.tasks o.timer.next).timePoint = o.due
  repeatable : (t.tasks o.timer.next).repeatable = false

variable {o}

theorem Waiting.advance {m : Nat} {t : Timer} (h : Waiting o m t) : Waiting o (m + 1) t.advance := by
  have hadvance := t.advance_eq
  constructor
  . rw [hadvance.1, h.timeNum]
  . rw [hadvance.2.2.2.2.2, h.timeNum, h.wheelIndex, Nat.mod_add_mod, Nat.add_assoc]
  . rw [hadvance.2.1, h.self]
  . intro i hi
    rw [hadvance.2.1, h.others i hi]
  . rw [hadvance.2.2.2.2.1, h.timePoint]
  . rw [hadvance.2.2.2.2.1, h.repeatable]

theorem waiting_inserted : Waiting o 0 o.inserted := by
  let t := o.timer.addOnceTask o.needTime o.time o.now
  have hwheel : t.timeWheel
      =
    Function.update o.timer.timeWheel (o.timer.slot o.time)
      (o.timer.timeWheel (o.timer.slot o.time) ++ [o.timer.next]) := rfl
  have htask : t.tasks o.timer.next = .new o.needTime o.time false 0 o.now := Function.update_self ..
  have hself : t.timeWheel (o.timer.slot o.time) = [o.timer.next] := by
    rw [hwheel]
    simp [o.empty]
  have hothers : ∀ i, i ≠ o.timer.slot o.time → t.timeWheel i = [] := by
    intro i hi
    rw [hwheel]
    simp [hi, o.empty]
  have hadvance := t.advance_eq
  unfold inserted
  cases hscanned : o.scanned with
  | false =>
    have hfirst : o.first = o.timer.wheelIndex := by simp [first, hscanned]
    constructor
    . rfl
    . rw [hfirst]
      exact (Nat.mod_eq_of_lt o.timer.wheelIndex_lt).symm
    . apply hself
    . apply hothers
    . show (t.tasks o.timer.next).timePoint = o.due
      rw [htask]
      rfl
    . show (t.tasks o.timer.next).repeatable = false
      rw [htask]
      rfl
  | true =>
    have hfirst : o.first = o.timer.wheelIndex + 1 := by simp [first, hscanned]
    constructor
    . apply hadvance.1
    . rw [hfirst]
      apply hadvance.2.2.2.2.2
    . exact (congrFun hadvance.2.1 _).trans hself
    . intro i hi
      exact (congrFun hadvance.2.1 i).trans (hothers i hi)
    . show (t.advance.tasks o.timer.next).timePoint = o.due
      rw [hadvance.2.2.2.2.1, htask]
      rfl
    . show (t.advance.tasks o.timer.next).repeatable = false
      rw [hadvance.2.2.2.2.1, htask]
      rfl

theorem tick_of_scan {t : Timer} {timeBegin : Int} (clock : Nat → Int)
    (h : t.scan timeBegin = ([], t)) : t.tick timeBegin clock = (t.advance, []) := by
  rw [tick_eq]
  simp only [h, workAll]

theorem Waiting.tick {m : Nat} {t : Timer} (h : Waiting o m t) (hfires : ¬o.Fires m)
    (clock : Nat → Int)
    : Waiting o (m + 1) (t.tick (o.tickTime m) clock).1 ∧ (t.tick (o.tickTime m) clock).2 = [] := by
  have hscan : t.scan (o.tickTime m) = ([], t) := by
    by_cases hindex : t.wheelIndex = o.timer.slot o.time
    . have hlist : t.timeWheel t.wheelIndex = [o.timer.next] := by rw [hindex, h.self]
      have hscans : o.Scans m := h.wheelIndex.symm.trans hindex
      have hearly : ¬(t.tasks o.timer.next).timePoint ≤ o.tickTime m := by
        rw [h.timePoint]
        intro hdue
        apply hfires ⟨hscans, hdue⟩
      rw [scan_of_singleton _ hlist h.repeatable]
      rw [if_neg hearly]
    . apply scan_of_nil _ (h.others _ hindex)
  rw [tick_of_scan clock hscan]
  exact ⟨h.advance, rfl⟩

theorem Waiting.tick_fires {m : Nat} {t : Timer} (h : Waiting o m t) (hfires : o.Fires m)
    (clock : Nat → Int)
    : (∀ i, (t.tick (o.tickTime m) clock).1.timeWheel i = []) ∧
      (t.tick (o.tickTime m) clock).2.map (fun e => (e.task, e.timeBegin))
        =
      [(o.timer.next, o.tickTime m)] := by
  have hindex : t.wheelIndex = o.timer.slot o.time := h.wheelIndex.trans hfires.1
  have hlist : t.timeWheel t.wheelIndex = [o.timer.next] := by rw [hindex, h.self]
  have hdue : (t.tasks o.timer.next).timePoint ≤ o.tickTime m := by
    rw [h.timePoint]
    apply hfires.2
  have hscan := scan_of_singleton (o.tickTime m) hlist h.repeatable
  rw [if_pos hdue] at hscan
  rw [tick_eq]
  rw [hscan]
  simp only [advance_eq, workAll_executed, List.map_cons, List.map_nil, and_true]
  intro i
  rw [(worked_workAll _ _ _ _).timeWheel]
  by_cases hi : i = t.wheelIndex
  . subst hi
    simp
  . simp only [Function.update_of_ne hi]
    apply h.others
    rw [← hindex]
    apply hi

theorem run_of_le {m : Nat} (h : m ≤ o.firing) : Waiting o m (o.run m).1 ∧ (o.run m).2 = [] := by
  induction m with
  | zero => exact ⟨waiting_inserted, rfl⟩
  | succ m ih =>
    have hold := ih (by omega)
    have hfires : ¬o.Fires m := Nat.find_min o.exists_fires (by unfold firing at h; omega)
    have hnew := hold.1.tick hfires (o.clock m)
    rw [run_succ]
    simp only [hold.2, hnew.2]
    exact ⟨hnew.1, rfl⟩

theorem run_of_lt {m : Nat} (h : o.firing < m)
    : (∀ i, (o.run m).1.timeWheel i = []) ∧
      (o.run m).2.map (fun e => (e.task, e.timeBegin))
        =
      [(o.timer.next, o.tickTime o.firing)] := by
  induction m with
  | zero => omega
  | succ m ih =>
    rw [run_succ]
    rcases Nat.lt_or_eq_of_le (Nat.le_of_lt_succ h) with hlt | heq
    . have hold := ih hlt
      rw [tick_of_scan _ (scan_of_nil _ (hold.1 _))]
      simp only [advance_eq, List.append_nil]
      exact hold
    . subst heq
      have hold := run_of_le (Nat.le_refl o.firing)
      have hnew := hold.1.tick_fires (Nat.find_spec o.exists_fires) (o.clock o.firing)
      simp only [hold.2, List.nil_append]
      exact hnew

theorem run_executed (m : Nat)
    : (o.run m).2.map (fun e => (e.task, e.timeBegin))
        =
      if o.firing < m then [(o.timer.next, o.tickTime o.firing)] else [] := by
  split
  . apply (run_of_lt (by assumption)).2
  . rw [(run_of_le (by omega)).2]
    rfl

theorem timely_iff_firing : o.Timely ↔ ∀ i, i + 2 ≤ o.firing → o.tickTime i ≤ o.due := by
  have hfires := Nat.find_spec o.exists_fires
  constructor
  . intro htimely
    rcases htimely with ⟨j, hrun, _, hle⟩
    have heq : j = o.firing := by
      apply Nat.le_antisymm
      . have hran := hrun (o.firing + 1)
        rw [run_executed] at hran
        apply Nat.le_of_not_lt
        intro hlt
        simp [show ¬j < o.firing + 1 by omega] at hran
      . have hran := hrun (j + 1)
        rw [run_executed] at hran
        apply Nat.le_of_not_lt
        intro hlt
        simp [show ¬o.firing < j + 1 by omega] at hran
    rw [← heq]
    apply hle
  . intro hle
    exact ⟨o.firing, run_executed, hfires.2, hle⟩

theorem firing_le {j r : Nat} (hscans : o.Scans j) (hr : r ≤ j) (hdue : o.due ≤ o.tickTime r)
    : o.firing ≤ j :=
  Nat.find_min' o.exists_fires ⟨hscans, Int.le_trans hdue (o.tickTime_mono hr)⟩

theorem slotInTime_of_le (h : ∀ i, i + 2 ≤ o.firing → o.tickTime i ≤ o.due) : o.SlotInTime := by
  have hdue := Nat.find_spec o.exists_due
  have hfires := Nat.find_spec o.exists_fires
  have hge : Nat.find o.exists_due ≤ o.firing := Nat.find_min' o.exists_due hfires.2
  have hmin := fun i (hi : i < Nat.find o.exists_due) => Int.not_le.mp (Nat.find_min o.exists_due hi)
  have hpos := o.timer.slotTime_pos
  generalize Nat.find o.exists_due = r at *
  have hsucc := o.tickTime_succ r
  have hlate : o.firing ≤ r + 2 := by
    apply Nat.le_of_not_lt
    intro hlt
    have hearly := h (r + 1) hlt
    omega
  have hscans : ∀ j, o.firing = j → o.Scans j := by
    intro j hj
    rw [← hj]
    apply hfires.1
  refine ⟨r, ⟨hdue, hmin⟩, ?_⟩
  have hcases : o.firing = r ∨ o.firing = r + 1 ∨ o.firing = r + 2 := by omega
  rcases hcases with hfiring | hfiring | hfiring
  . exact Or.inl (hscans _ hfiring)
  . exact Or.inr (Or.inl (hscans _ hfiring))
  . have hearly := h r (by omega)
    exact Or.inr (Or.inr ⟨by omega, hscans _ hfiring⟩)

/--
The task is in time exactly for the wheel positions at which its slot comes soon after the delay.
-/
theorem timely_iff (o : Once) : o.Timely ↔ o.SlotInTime := by
  rw [timely_iff_firing]
  constructor
  . apply slotInTime_of_le
  . intro hslot i hi
    rcases hslot with ⟨r, ⟨hdue, hmin⟩, hscans⟩
    rcases hscans with hscans | hscans | ⟨heq, hscans⟩
    . have hle := firing_le hscans (Nat.le_refl r) hdue
      have hlt := hmin i (by omega)
      omega
    . have hle := firing_le hscans (Nat.le_succ r) hdue
      have hlt := hmin i (by omega)
      omega
    . have hle := firing_le hscans (Nat.le_add_right r 2) hdue
      rw [← heq]
      apply o.tickTime_mono (by omega)

-- ten slots of 100 ms, at wheel index 5 a delay of 100 ms is put into slot 0
def late : Once where
  timer :=
    { timeNum := 10
      timeWheel := fun _ => []
      tasks := fun _ => TimerTask.new false 0 false 0 0
      next := 0
      priodTimerMap := fun _ => none
      wheelIndex := 5
      timeNum_pos := by decide
      timeNum_le := by decide
      wheelIndex_lt := by decide }
  needTime := false
  time := 100
  now := 0
  scanned := false
  start := 100
  clock _ _ := 0
  empty _ := rfl

theorem not_timely_late : ¬late.Timely := by
  intro htimely
  rcases htimely with ⟨j, hrun, _, hle⟩
  have hlog : (late.run 6).2.map (fun e => (e.task, e.timeBegin)) = [(0, 600)] := by decide
  have hran := hrun 6
  rw [hlog] at hran
  split at hran
  . have htime : (600 : Int) = 100 + (j : Int) * 100 := by
      have heq := (Prod.mk.inj (List.cons.inj hran).1).2
      exact heq
    have hearly : (200 : Int) ≤ 100 := hle 1 (by omega)
    omega
  . cases hran

end Once
end Timer
end Fish
