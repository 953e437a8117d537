import FishRpc.Base.Impl.Timer

/-!
This module contains what the operations of the timer do to the wheel, the map and the tasks, and
the slots that `slot` chooses: the index is divided by the number of slots where the remainder is
meant, so only the slots 0 and 1 are ever used.
-/

namespace Fish
namespace Timer

theorem slotTime_pos (t : Timer) : 0 < t.slotTime :=
  Nat.div_pos t.timeNum_le t.timeNum_pos

theorem tdiv_cases {x n : Int} (hn : 0 < n) (hlo : -n < x) (hhi : x < 2 * n)
    : x.tdiv n = 0 ∨ x.tdiv n = 1 := by
  rcases Int.lt_or_le x 0 with hneg | hnonneg
  . left
    have hzero : (-x).tdiv n = 0 := Int.tdiv_eq_zero_of_lt (by omega) (by omega)
    rw [Int.neg_tdiv] at hzero
    omega
  . rcases Int.lt_or_le x n with hlt | hge
    . left
      apply Int.tdiv_eq_zero_of_lt hnonneg hlt
    . right
      have hsub : (x - n) / n = 0 := Int.ediv_eq_zero_of_lt (by omega) (by omega)
      have hadd := Int.add_mul_ediv_right (x - n) 1 (show n ≠ 0 by omega)
      rw [Int.tdiv_eq_ediv_of_nonneg hnonneg]
      rw [Int.one_mul, Int.sub_add_cancel, hsub] at hadd
      apply hadd

theorem index_cases (t : Timer) (time : Int)
    : ((time.tdiv t.slotTime).tmod t.timeNum + t.wheelIndex).tdiv t.timeNum = 0 ∨
      ((time.tdiv t.slotTime).tmod t.timeNum + t.wheelIndex).tdiv t.timeNum = 1 := by
  have hpos : (0 : Int) < t.timeNum := by have := t.timeNum_pos; omega
  have hlt : (t.wheelIndex : Int) < t.timeNum := by have := t.wheelIndex_lt; omega
  have hupper : (time.tdiv t.slotTime).tmod t.timeNum < t.timeNum := Int.tmod_lt_of_pos _ hpos
  have hlower : -(t.timeNum : Int) < (time.tdiv t.slotTime).tmod t.timeNum :=
    Int.lt_tmod_of_pos _ hpos
  apply tdiv_cases hpos
  . omega
  . omega

theorem slot_eq (t : Timer) (time : Int)
    : (t.slot time : Int)
        =
      ((time.tdiv t.slotTime).tmod t.timeNum + t.wheelIndex).tdiv t.timeNum := by
  unfold slot
  simp only
  rcases t.index_cases time with hzero | hone
  . rw [hzero]
    rfl
  . rw [hone]
    rfl

theorem slot_cases (t : Timer) (time : Int) : t.slot time = 0 ∨ t.slot time = 1 := by
  have hslot := t.slot_eq time
  have hindex := t.index_cases time
  rw [← hslot] at hindex
  omega

theorem slot_lt (t : Timer) (time : Int) : t.slot time < t.timeNum := by
  have hpos := t.timeNum_pos
  have hlt := t.wheelIndex_lt
  rcases Nat.eq_or_lt_of_le (Nat.succ_le_of_lt hpos) with hone | hmore
  . have hindex : t.wheelIndex = 0 := by omega
    have hnum : t.timeNum = 1 := hone.symm
    unfold slot
    simp only [hindex, hnum]
    simp [Int.tmod_one, intToSize]
  . rcases t.slot_cases time with hzero | hone
    . omega
    . omega

/-! ### Executing the tasks that are due -/

-- `t'` differs from `t` in the insertion times of the tasks only
structure Worked (t t' : Timer) : Prop where
  timeNum : t'.timeNum = t.timeNum
  timeWheel : t'.timeWheel = t.timeWheel
  next : t'.next = t.next
  priodTimerMap : t'.priodTimerMap = t.priodTimerMap
  wheelIndex : t'.wheelIndex = t.wheelIndex
  timePoint : ∀ p, (t'.tasks p).timePoint = (t.tasks p).timePoint
  repeatable : ∀ p, (t'.tasks p).repeatable = (t.tasks p).repeatable
  id : ∀ p, (t'.tasks p).id = (t.tasks p).id

theorem worked_refl (t : Timer) : Worked t t := by
  constructor <;> first | rfl | exact fun _ => rfl

theorem Worked.trans {t t' t'' : Timer} (h : Worked t t') (h' : Worked t' t'') : Worked t t'' where
  timeNum := h'.timeNum.trans h.timeNum
  timeWheel := h'.timeWheel.trans h.timeWheel
  next := h'.next.trans h.next
  priodTimerMap := h'.priodTimerMap.trans h.priodTimerMap
  wheelIndex := h'.wheelIndex.trans h.wheelIndex
  timePoint p := (h'.timePoint p).trans (h.timePoint p)
  repeatable p := (h'.repeatable p).trans (h.repeatable p)
  id p := (h'.id p).trans (h.id p)

theorem worked_work (t : Timer) (timer : TaskPtr) (now : Int) : Worked t (t.work timer now).2 := by
  unfold work
  simp only
  split
  . have htask : ∀ p, ∃ insertTime, (Function.update t.tasks timer
        { t.tasks timer with insertTime := now }) p = { t.tasks p with insertTime := insertTime } := by
      intro p
      by_cases hp : p = timer
      . subst hp
        exact ⟨now, by simp⟩
      . exact ⟨(t.tasks p).insertTime, by simp [hp]⟩
    constructor
    . rfl
    . rfl
    . rfl
    . rfl
    . rfl
    . intro p
      rcases htask p with ⟨_, h⟩
      simp only [h]
    . intro p
      rcases htask p with ⟨_, h⟩
      simp only [h]
    . intro p
      rcases htask p with ⟨_, h⟩
      simp only [h]
  . apply worked_refl

theorem worked_workAll (t : Timer) (timeBegin : Int) (clock : Nat → Int)
    (timeOutVec : List TaskPtr) : Worked t (t.workAll timeBegin clock timeOutVec).1 := by
  induction timeOutVec generalizing t clock with
  | nil => apply worked_refl
  | cons timer timeOutVec ih => apply (worked_work t timer (clock 0)).trans (ih _ _)

theorem workAll_executed (t : Timer) (timeBegin : Int) (clock : Nat → Int)
    (timeOutVec : List TaskPtr)
    : (t.workAll timeBegin clock timeOutVec).2.map (fun e => (e.task, e.timeBegin))
        =
      timeOutVec.map fun timer => (timer, timeBegin) := by
  induction timeOutVec generalizing t clock with
  | nil => rfl
  | cons timer timeOutVec ih =>
    simp only [workAll, List.map_cons]
    rw [ih]

/-! ### Ticks -/

theorem advance_eq (t : Timer)
    : t.advance.timeNum = t.timeNum ∧ t.advance.timeWheel = t.timeWheel ∧ t.advance.next = t.next ∧
      t.advance.priodTimerMap = t.priodTimerMap ∧ t.advance.tasks = t.tasks ∧
      t.advance.wheelIndex = (t.wheelIndex + 1) % t.timeNum := by
  have hlt := t.wheelIndex_lt
  unfold advance
  split
  . rename_i h
    simp [h]
  . rw [Nat.mod_eq_of_lt (by omega)]
    simp

theorem scan_eq (t : Timer) (timeBegin : Int)
    : let walk := EraseWalk.walk (t.isTimeOut timeBegin) (fun timer => (t.tasks timer).repeatable)
        ((t.timeWheel t.wheelIndex).length + 1) (t.timeWheel t.wheelIndex)
      t.scan timeBegin
        =
      (walk.1, { t with timeWheel := Function.update t.timeWheel t.wheelIndex walk.2 }) := rfl

/--
More rounds do not change what a scan does, its walk has come to an end.
-/
theorem scan_ends (t : Timer) (timeBegin : Int) (n : Nat)
    : let wheelList := t.timeWheel t.wheelIndex
      let walk fuel := EraseWalk.walk (t.isTimeOut timeBegin)
        (fun timer => (t.tasks timer).repeatable) fuel wheelList
      walk (wheelList.length + 1 + n) = walk (wheelList.length + 1) := by
  induction n with
  | zero => rfl
  | succ n ih =>
    have hfuel : (t.timeWheel t.wheelIndex).length < (t.timeWheel t.wheelIndex).length + 1 + n := by
      omega
    apply (EraseWalk.walk_fuel hfuel).trans ih

theorem scan_of_nil {t : Timer} (timeBegin : Int) (h : t.timeWheel t.wheelIndex = [])
    : t.scan timeBegin = ([], t) := by
  have hkeep : Function.update t.timeWheel t.wheelIndex [] = t.timeWheel := by
    rw [← h]
    apply Function.update_eq_self t.wheelIndex t.timeWheel
  rw [scan_eq]
  simp only [h, List.length_nil, EraseWalk.walk_succ, EraseWalk.round]
  simp [hkeep]

theorem scan_of_singleton {t : Timer} (timeBegin : Int) {p : TaskPtr}
    (h : t.timeWheel t.wheelIndex = [p]) (hrepeatable : (t.tasks p).repeatable = false)
    : t.scan timeBegin
        =
      if (t.tasks p).timePoint ≤ timeBegin then
        ([p], { t with timeWheel := Function.update t.timeWheel t.wheelIndex [] })
      else
        ([], t) := by
  have hkeep : Function.update t.timeWheel t.wheelIndex [p] = t.timeWheel := by
    rw [← h]
    apply Function.update_eq_self t.wheelIndex t.timeWheel
  rw [scan_eq]
  simp only [h, List.length_singleton, EraseWalk.walk_singleton, isTimeOut, hrepeatable,
    decide_eq_true_eq]
  split
  . rfl
  . simp [hkeep]

-- a tick erases tasks that are not repeatable from the slot of the wheel index
structure Ticked (t t' : Timer) (timeBegin : Int) (executed : List Executed) : Prop where
  timeNum : t'.timeNum = t.timeNum
  next : t'.next = t.next
  priodTimerMap : t'.priodTimerMap = t.priodTimerMap
  wheelIndex : t'.wheelIndex = (t.wheelIndex + 1) % t.timeNum
  timePoint : ∀ p, (t'.tasks p).timePoint = (t.tasks p).timePoint
  repeatable : ∀ p, (t'.tasks p).repeatable = (t.tasks p).repeatable
  id : ∀ p, (t'.tasks p).id = (t.tasks p).id
  sublist : ∀ i, (t'.timeWheel i).Sublist (t.timeWheel i)
  keep : ∀ i p, p ∈ t.timeWheel i → (t.tasks p).repeatable = true → p ∈ t'.timeWheel i
  executed : ∀ e ∈ executed, e.task ∈ t.timeWheel t.wheelIndex ∧
    (t.tasks e.task).timePoint ≤ timeBegin ∧ e.timeBegin = timeBegin

theorem tick_eq (t : Timer) (timeBegin : Int) (clock : Nat → Int)
    : t.tick timeBegin clock
        =
      let scanned := t.scan timeBegin
      let worked := scanned.2.workAll timeBegin clock scanned.1
      (worked.1.advance, worked.2) := rfl

theorem ticked_tick (t : Timer) (timeBegin : Int) (clock : Nat → Int)
    : Ticked t (t.tick timeBegin clock).1 timeBegin (t.tick timeBegin clock).2 := by
  have hwork := worked_workAll (t.scan timeBegin).2 timeBegin clock (t.scan timeBegin).1
  have hexecuted := workAll_executed (t.scan timeBegin).2 timeBegin clock (t.scan timeBegin).1
  have hadvance := advance_eq ((t.scan timeBegin).2.workAll timeBegin clock (t.scan timeBegin).1).1
  have hleft (i : Nat) : ((t.scan timeBegin).2.timeWheel i).Sublist (t.timeWheel i) := by
    rw [scan_eq]
    by_cases hi : i = t.wheelIndex
    . subst hi
      simpa using EraseWalk.walk_left_sublist _ _
    . simp [hi]
  rw [tick_eq]
  constructor
  . apply hadvance.1.trans hwork.timeNum
  . apply hadvance.2.2.1.trans hwork.next
  . apply hadvance.2.2.2.1.trans hwork.priodTimerMap
  . apply hadvance.2.2.2.2.2.trans (by rw [hwork.wheelIndex, hwork.timeNum]; rfl)
  . intro p
    simp only [hadvance]
    apply hwork.timePoint
  . intro p
    simp only [hadvance]
    apply hwork.repeatable
  . intro p
    simp only [hadvance]
    apply hwork.id
  . intro i
    simp only [hadvance, hwork.timeWheel]
    apply hleft
  . intro i p hp hrepeatable
    simp only [hadvance, hwork.timeWheel]
    rw [scan_eq]
    by_cases hi : i = t.wheelIndex
    . subst hi
      simpa using EraseWalk.mem_walk_left _ hp hrepeatable
    . simpa [hi] using hp
  . intro e he
    have hmem : (e.task, e.timeBegin) ∈ (t.scan timeBegin).1.map fun timer => (timer, timeBegin) := by
      rw [← hexecuted]
      apply List.mem_map.mpr ⟨e, he, rfl⟩
    rcases List.mem_map.mp hmem with ⟨timer, htimer, heq⟩
    simp only [Prod.mk.injEq] at heq
    rw [scan_eq] at htimer
    have htaken := EraseWalk.mem_of_mem_walk_taken htimer
    rw [← heq.1]
    exact ⟨htaken.1, of_decide_eq_true htaken.2, heq.2.symm⟩

end Timer
end Fish
