import FishRpc.Base.Lemmas.TimerGap

/-!
This module contains the one-shot tasks over whole runs. The iterator of a tick skips tasks and can
pass the end of the list, but it takes a one-shot task exactly when it erases it: none is lost and
none is executed, and thereby deleted, a second time.
-/

namespace Fish
namespace Timer

def Event.isTick : Event → Bool
  | .tick _ _ => true
  | _ => false

namespace Clocked

open History (Periodic)

variable {s : Clocked} {p : TaskPtr}

-- a one-shot task that has been added
structure OneShot (s : Clocked) (p : TaskPtr) : Prop where
  allocated : p < s.timer.next
  once : (s.timer.tasks p).repeatable = false

inductive Fate (s : Clocked) (p : TaskPtr) : Prop where
  | waiting {i : Nat} (slot : i < s.timer.timeNum) (mem : p ∈ s.timer.timeWheel i)
    (times : s.times p = [])
  | executed {b : Int} (gone : ∀ i, p ∉ s.timer.timeWheel i) (times : s.times p = [b])
    (due : (s.timer.tasks p).timePoint ≤ b)

structure Kept (s : Clocked) : Prop where
  history : s.history.Inv
  allocated : ∀ e ∈ s.executed, e.task < s.timer.next
  fate : ∀ p, s.OneShot p → s.Fate p

theorem times_tick_eq (s : Clocked) (timeBegin : Int) (clock : Nat → Int) (p : TaskPtr)
    : (s.next (.tick timeBegin clock)).times p
        =
      s.times p ++ List.replicate ((s.timer.scan timeBegin).1.count p) timeBegin := by
  have hpairs := (s.timer.scan timeBegin).2.workAll_executed timeBegin clock
    (s.timer.scan timeBegin).1
  unfold times next
  rw [List.filter_append, List.map_append, tick_eq, filter_task hpairs]

theorem timeWheel_tick_self (s : Clocked) (timeBegin : Int) (clock : Nat → Int)
    (hp : (s.timer.tasks p).repeatable = false)
    : (s.timer.scan timeBegin).1.count p +
        ((s.timer.tick timeBegin clock).1.timeWheel s.timer.wheelIndex).count p
        =
      (s.timer.timeWheel s.timer.wheelIndex).count p := by
  have hkeep : s.timer.isRepeatable p = false := hp
  rw [tick_timeWheel, scan_eq]
  simp only [Function.update_self]
  exact EraseWalk.count_walk hkeep _ _

theorem timeWheel_tick_of_ne (s : Clocked) (timeBegin : Int) (clock : Nat → Int) {i : Nat}
    (hi : i ≠ s.timer.wheelIndex)
    : (s.timer.tick timeBegin clock).1.timeWheel i = s.timer.timeWheel i := by
  rw [tick_timeWheel, scan_eq]
  simp only [Function.update_of_ne hi]

/-! ### Ticks -/

section

variable {timeBegin : Int} {clock : Nat → Int}

theorem Fate.keep {i : Nat} (slot : i < s.timer.timeNum) (times : s.times p = [])
    (hmem : p ∈ (s.next (.tick timeBegin clock)).timer.timeWheel i)
    (hcount : (s.timer.scan timeBegin).1.count p = 0)
    : (s.next (.tick timeBegin clock)).Fate p := by
  have hnum := (ticked_tick s.timer timeBegin clock).timeNum
  apply Fate.waiting _ hmem
  . rw [times_tick_eq, times, hcount]
    rfl
  . exact hnum.symm ▸ slot

-- the task is in the slot of the tick, where it is taken and erased or neither
theorem Kept.fate_current (h : s.Kept) (hp : (s.timer.tasks p).repeatable = false)
    (hmem : p ∈ s.timer.timeWheel s.timer.wheelIndex) (htimes : s.times p = [])
    : (s.next (.tick timeBegin clock)).Fate p := by
  have hticked := ticked_tick s.timer timeBegin clock
  have hcount := timeWheel_tick_self s timeBegin clock hp
  rw [List.count_eq_one_of_mem (h.history.nodup _) hmem] at hcount
  by_cases htaken : (s.timer.scan timeBegin).1.count p = 0
  . rw [htaken, Nat.zero_add] at hcount
    apply Fate.keep s.timer.wheelIndex_lt htimes _ htaken
    exact List.count_pos_iff.mp (Nat.lt_of_lt_of_eq Nat.one_pos hcount.symm)
  . have hone : (s.timer.scan timeBegin).1.count p = 1 := by omega
    have hgone : ((s.timer.tick timeBegin clock).1.timeWheel s.timer.wheelIndex).count p = 0 := by
      omega
    have hdue : (s.timer.tasks p).timePoint ≤ timeBegin := by
      have hin : p ∈ (s.timer.scan timeBegin).1 := List.count_pos_iff.mp (by omega)
      rw [scan_eq] at hin
      exact of_decide_eq_true (EraseWalk.mem_of_mem_walk_taken hin).2
    apply Fate.executed (b := timeBegin)
    . intro i hi
      by_cases hslot : i = s.timer.wheelIndex
      . rw [hslot] at hi
        exact List.count_eq_zero.mp hgone hi
      . have hold := (hticked.sublist i).mem hi
        exact hslot (h.history.single i _ p hold hmem)
    . rw [times_tick_eq, htimes, hone]
      rfl
    . show ((s.timer.tick timeBegin clock).1.tasks p).timePoint ≤ timeBegin
      rw [hticked.timePoint]
      exact hdue

theorem count_scan_of_notMem (h : p ∉ s.timer.timeWheel s.timer.wheelIndex)
    : (s.timer.scan timeBegin).1.count p = 0 := by
  rw [List.count_eq_zero, scan_eq]
  intro hin
  exact h (EraseWalk.mem_of_mem_walk_taken hin).1

theorem Kept.tick (h : s.Kept) : (s.next (.tick timeBegin clock)).Kept := by
  have hticked := ticked_tick s.timer timeBegin clock
  constructor
  . exact h.history.next (.tick timeBegin clock)
  . intro e he
    show e.task < (s.timer.tick timeBegin clock).1.next
    rw [hticked.next]
    rcases List.mem_append.mp he with he | he
    . apply h.allocated e he
    . apply h.history.allocated _ _ (hticked.executed e he).1
  . intro p hp
    have hrepeatable : (s.timer.tasks p).repeatable = false :=
      (hticked.repeatable p).symm.trans hp.once
    have hlt : p < s.timer.next := Nat.lt_of_lt_of_eq hp.allocated hticked.next
    cases h.fate p ⟨hlt, hrepeatable⟩ with
    | waiting slot mem times =>
      rename_i i
      by_cases hi : i = s.timer.wheelIndex
      . rw [hi] at mem
        apply h.fate_current hrepeatable mem times
      . have hnot : p ∉ s.timer.timeWheel s.timer.wheelIndex := by
          intro hin
          exact hi (h.history.single i _ p mem hin)
        apply Fate.keep slot times _ (count_scan_of_notMem hnot)
        show p ∈ (s.timer.tick timeBegin clock).1.timeWheel i
        rw [timeWheel_tick_of_ne s timeBegin clock hi]
        exact mem
    | executed gone times due =>
      rename_i b
      apply Fate.executed (b := b)
      . intro i hi
        exact gone i ((hticked.sublist i).mem hi)
      . rw [times_tick_eq, times, count_scan_of_notMem (gone _)]
        rfl
      . show ((s.timer.tick timeBegin clock).1.tasks p).timePoint ≤ b
        rw [hticked.timePoint]
        exact due

end

/-! ### Adding and removing -/

-- what a call leaves behind: a new task in a slot, or the same wheel with the same tasks
inductive Called (s s' : Clocked) : Prop where
  | added {task : TimerTask} {index : Nat} {map : Int → Option TaskPtr}
    (timer : s'.timer = History.added s.timer task index map) (slot : index < s.timer.timeNum)
  | same {map : Int → Option TaskPtr} (timer : s'.timer = { s.timer with priodTimerMap := map })

theorem called_next (s : Clocked) {e : Event} (he : e.isTick = false) : Called s (s.next e) := by
  cases e with
  | addOnceTask needTime time now => exact .added rfl (s.timer.slot_lt time)
  | addPriodTask needTime time id now =>
    cases hfound : s.timer.priodTimerMap id with
    | some q =>
      have htimer : (s.next (.addPriodTask needTime time id now)).timer
          = { s.timer with priodTimerMap := s.timer.priodTimerMap } :=
        congrArg History.timer (History.next_addPriodTask_old hfound needTime time now)
      exact .same htimer
    | none =>
      exact .added (congrArg History.timer (History.next_addPriodTask_new hfound needTime time now))
        (s.timer.slot_lt time)
  | removePriodTask id =>
    cases hfound : s.timer.priodTimerMap id with
    | none =>
      have htimer : (s.next (.removePriodTask id)).timer
          = { s.timer with priodTimerMap := s.timer.priodTimerMap } :=
        congrArg History.timer (History.next_removePriodTask_none hfound)
      exact .same htimer
    | some q =>
      have htimer : (s.next (.removePriodTask id)).timer
          = { s.timer with priodTimerMap := Function.update s.timer.priodTimerMap id none } :=
        congrArg History.timer (History.next_removePriodTask_some hfound)
      exact .same htimer
  | tick timeBegin clock => cases he

theorem executed_next (s : Clocked) {e : Event} (he : e.isTick = false)
    : (s.next e).executed = s.executed := by
  cases e with
  | tick timeBegin clock => cases he
  | _ => rfl

theorem last_next (s : Clocked) {e : Event} (he : e.isTick = false)
    : (s.next e).last = s.last := by
  cases e with
  | tick timeBegin clock => cases he
  | _ => rfl

theorem times_next (s : Clocked) {e : Event} (he : e.isTick = false) (p : TaskPtr)
    : (s.next e).times p = s.times p := by
  unfold times
  rw [executed_next s he]

theorem Kept.call (h : s.Kept) {e : Event} (he : e.isTick = false) : (s.next e).Kept := by
  have htimes := times_next s he
  have hhistory : (s.next e).history.Inv := by
    rw [history_next]
    apply h.history.next
  refine ⟨hhistory, ?_, ?_⟩
  . rw [executed_next s he]
    intro e' he'
    have hlt := h.allocated e' he'
    cases called_next s he with
    | added timer slot =>
      rw [timer]
      exact Nat.lt_succ_of_lt hlt
    | same timer =>
      rw [timer]
      exact hlt
  . intro p hp
    cases called_next s he with
    | added timer slot =>
      rename_i task index map
      have hmem (i : Nat) : p ∈ (s.next e).timer.timeWheel i
          ↔ p ∈ s.timer.timeWheel i ∨ i = index ∧ p = s.timer.next := by
        rw [timer]
        apply History.mem_added
      have hnum : (s.next e).timer.timeNum = s.timer.timeNum := by rw [timer]; rfl
      have hnext : (s.next e).timer.next = s.timer.next + 1 := by rw [timer]; rfl
      by_cases hnew : p = s.timer.next
      . apply Fate.waiting (hnum.symm ▸ slot) ((hmem index).mpr (Or.inr ⟨rfl, hnew⟩))
        rw [htimes]
        apply times_of_unallocated h.allocated (Nat.le_of_eq hnew.symm)
      . have htask : (s.next e).timer.tasks p = s.timer.tasks p := by
          rw [timer]
          apply History.tasks_added_of_ne index hnew
        have hle : p ≤ s.timer.next :=
          Nat.le_of_lt_succ (Nat.lt_of_lt_of_eq hp.allocated hnext)
        cases h.fate p ⟨Nat.lt_of_le_of_ne hle hnew, htask ▸ hp.once⟩ with
        | waiting slot mem times =>
          exact .waiting (hnum.symm ▸ slot) ((hmem _).mpr (Or.inl mem)) ((htimes p).trans times)
        | executed gone times due =>
          apply Fate.executed _ ((htimes p).trans times) (htask.symm ▸ due)
          intro i hi
          rcases (hmem i).mp hi with hold | ⟨_, heq⟩
          . exact gone i hold
          . exact hnew heq
    | same timer =>
      have hold : s.OneShot p := by
        rcases hp with ⟨hallocated, honce⟩
        rw [timer] at hallocated honce
        exact ⟨hallocated, honce⟩
      cases h.fate p hold with
      | waiting slot mem times =>
        rename_i i
        apply Fate.waiting (i := i)
        . rw [timer]
          exact slot
        . rw [timer]
          exact mem
        . exact (htimes p).trans times
      | executed gone times due =>
        apply Fate.executed _ ((htimes p).trans times)
        . rw [timer]
          exact due
        . rw [timer]
          exact gone

theorem Kept.next (h : s.Kept) (e : Event) : (s.next e).Kept := by
  cases he : e.isTick with
  | false => exact h.call he
  | true =>
    cases e with
    | tick timeBegin clock => exact h.tick
    | _ => cases he

theorem kept_start (timeInterval : Nat) (hpos : 0 < timeInterval) (hle : timeInterval ≤ 1000)
    : (start timeInterval hpos hle).Kept where
  history := History.inv_start timeInterval hpos hle
  allocated e he := by cases he
  fate p hp := absurd hp.allocated (Nat.not_lt_zero p)

/--
After any calls and ticks, each one-shot task that has been added is either in exactly one slot and
has not been executed, or it is in none and has been executed exactly once, when it was due.
-/
theorem fate_of_run {timeInterval : Nat} {hpos : 0 < timeInterval} {hle : timeInterval ≤ 1000}
    {es : List Event} (h : Run (Run.Next next) Run.Always (start timeInterval hpos hle) es s)
    (p : TaskPtr) (hp : s.OneShot p)
    : ((∃! i, p ∈ s.timer.timeWheel i) ∧ s.times p = []) ∨
        (∀ i, p ∉ s.timer.timeWheel i) ∧
          ∃ b, s.times p = [b] ∧ (s.timer.tasks p).timePoint ≤ b := by
  have hs : s.Kept := by
    apply h.invariant (kept_start timeInterval hpos hle)
    intro s e s' hs _ hstep
    rw [hstep]
    exact hs.next e
  cases hs.fate p hp with
  | waiting slot mem times =>
    refine Or.inl ⟨⟨_, mem, ?_⟩, times⟩
    intro j hj
    exact hs.history.single _ _ p hj mem
  | executed gone times due => exact Or.inr ⟨gone, _, times, due⟩

-- a slot with two one-shot tasks that are due: the second one is skipped and waits for the next tick
theorem fate_of_run_skipped
    : ∃ es s,
        Run (Run.Next next) Run.Always (start 1000 (by decide) (by decide)) es s ∧
        s.times 0 = [5] ∧ s.times 1 = [] ∧
        (((∃! i, 1 ∈ s.timer.timeWheel i) ∧ s.times 1 = []) ∨
          (∀ i, 1 ∉ s.timer.timeWheel i) ∧
            ∃ b, s.times 1 = [b] ∧ (s.timer.tasks 1).timePoint ≤ b) := by
  let es : List Event :=
    [.addOnceTask false 5 0, .addOnceTask false 5 0, .addOnceTask false 9 0, .tick 5 fun _ => 5]
  have hrun : Run (Run.Next next) Run.Always (start 1000 (by decide) (by decide)) es
      (es.foldl next (start 1000 (by decide) (by decide))) := Run.foldl next _ es
  refine ⟨es, _, hrun, by decide +kernel, by decide +kernel, fate_of_run hrun 1 ?_⟩
  exact ⟨by decide +kernel, by decide +kernel⟩

end Clocked
end Timer
end Fish
