import FishRpc.Base.Impl.TimerObject
import FishRpc.Base.Lemmas.TimerPeriod

/-!
This module contains the intervals that a timer works with. Up to an interval of 1000 the object is
that of a `Timer`, whose numbers are within their bounds, and does the same as it. With a longer one
the wheel has no slots.
-/

namespace Fish

def Timer.object (t : Timer) : TimerObject where
  timeNum := t.timeNum
  timeWheel := t.timeWheel
  tasks := t.tasks
  next := t.next
  priodTimerMap := t.priodTimerMap
  wheelIndex := t.wheelIndex

def Timer.after (t : Timer) : Timer.Event → Timer
  | .addOnceTask needTime time now => t.addOnceTask needTime time now
  | .addPriodTask needTime time id now => (t.addPriodTask needTime time id now).2
  | .removePriodTask id => (t.removePriodTask id).2
  | .tick timeBegin clock => (t.tick timeBegin clock).1

namespace TimerObject

open Timer (Event)

def call (s : TimerObject) : Event → Except TimerFault TimerObject
  | .addOnceTask needTime time now => s.addOnceTask needTime time now
  | .addPriodTask needTime time id now => (s.addPriodTask needTime time id now).map Prod.snd
  | .removePriodTask id => .ok (s.removePriodTask id).2
  | .tick timeBegin clock => (s.tick timeBegin clock).map Prod.fst

variable (t : Timer)

theorem div_of_ne {a b : Int} (h : b ≠ 0) : div a b = .ok (a.tdiv b) := if_neg h

theorem rem_of_ne {a b : Int} (h : b ≠ 0) : rem a b = .ok (a.tmod b) := if_neg h

theorem timeNum_ne : t.object.timeNum ≠ 0 := by
  have hpos := t.timeNum_pos
  simp only [Timer.object]
  omega

theorem div_timeNum : div 1000 t.object.timeNum = .ok t.slotTime :=
  div_of_ne (timeNum_ne t)

theorem slotTime_ne : (t.slotTime : Int) ≠ 0 := by
  have hpos := t.slotTime_pos
  omega

theorem slot_object (time : Int) : t.object.slot time = .ok (t.slot time) := by
  have hdiv : div time t.slotTime = _ := div_of_ne (slotTime_ne t)
  have hrem : rem (time.tdiv t.slotTime) t.object.timeNum = _ := rem_of_ne (timeNum_ne t)
  unfold slot
  rw [div_timeNum]
  simp only [bind, Except.bind, hdiv, hrem]
  rw [div_of_ne (timeNum_ne t), t.slot_eq]
  rfl

theorem subscript_object {index : Nat} (h : index < t.timeNum)
    : t.object.subscript index = .ok index := by
  unfold subscript
  rw [if_pos]
  . rfl
  . simp only [Timer.object]
    omega

@[simp]
theorem newTask_object (task : TimerTask)
    : t.object.newTask task = ((t.newTask task).1, (t.newTask task).2.object) := rfl

@[simp]
theorem pushBack_object (index : Nat) (timer : TaskPtr)
    : t.object.pushBack index timer = (t.pushBack index timer).object := rfl

theorem addOnceTask_object (needTime : Bool) (time now : Int)
    : t.object.addOnceTask needTime time now = .ok (t.addOnceTask needTime time now).object := by
  have hlt : t.slot time < (t.newTask (.new needTime time false 0 now)).2.timeNum := t.slot_lt time
  unfold addOnceTask
  simp only [bind, Except.bind, slot_object, newTask_object]
  rw [subscript_object _ hlt]
  rfl

-- the part behind the insertion into the map
theorem place_object (time : Int) (timer : TaskPtr)
    : (do
        let index ← t.object.slot time
        let index ← t.object.subscript index
        return (true, t.object.pushBack index timer) : Except TimerFault (Bool × TimerObject))
        =
      .ok (true, (t.pushBack (t.slot time) timer).object) := by
  simp only [bind, Except.bind, slot_object, pushBack_object]
  rw [subscript_object t (t.slot_lt time)]
  rfl

theorem addPriodTask_object (needTime : Bool) (time id now : Int)
    : t.object.addPriodTask needTime time id now
        =
      .ok
        ((t.addPriodTask needTime time id now).1, (t.addPriodTask needTime time id now).2.object) := by
  have hmap : t.object.priodTimerMap = t.priodTimerMap := rfl
  unfold addPriodTask Timer.addPriodTask
  rw [hmap]
  cases t.priodTimerMap id with
  | some p => rfl
  | none =>
    exact place_object
      { (t.newTask (.new needTime time true id now)).2 with
        priodTimerMap := Function.update t.priodTimerMap id (some t.next) } time t.next

theorem removePriodTask_object (id : Int)
    : t.object.removePriodTask id
        =
      ((t.removePriodTask id).1, (t.removePriodTask id).2.object) := by
  have hmap : t.object.priodTimerMap = t.priodTimerMap := rfl
  unfold removePriodTask Timer.removePriodTask
  rw [hmap]
  cases t.priodTimerMap id with
  | none => rfl
  | some p => rfl

theorem workAll_object (timeBegin : Int) (clock : Nat → Int) (timeOutVec : List TaskPtr)
    : workAll t.tasks timeBegin clock timeOutVec
        =
      ((t.workAll timeBegin clock timeOutVec).1.tasks, (t.workAll timeBegin clock timeOutVec).2) := by
  induction timeOutVec generalizing t clock with
  | nil => rfl
  | cons timer timeOutVec ih =>
    have hwork : work t.tasks timer (clock 0)
        = ((t.work timer (clock 0)).1, (t.work timer (clock 0)).2.tasks) := by
      unfold work Timer.work
      simp only
      split <;> rfl
    unfold workAll Timer.workAll
    simp only [hwork, ih]

theorem advance_object
    : t.advance.object
        =
      { t.object with
        wheelIndex :=
          if t.object.wheelIndex + 1 = t.object.timeNum then 0 else t.object.wheelIndex + 1 } := by
  have hiff : (t.wheelIndex : Int) + 1 = t.timeNum ↔ t.wheelIndex + 1 = t.timeNum := by omega
  unfold Timer.advance
  simp only [Timer.object, hiff]
  split <;> rfl

theorem tick_object (timeBegin : Int) (clock : Nat → Int)
    : t.object.tick timeBegin clock
        =
      .ok ((t.tick timeBegin clock).1.object, (t.tick timeBegin clock).2) := by
  have hwork := workAll_object (t.scan timeBegin).2 timeBegin clock (t.scan timeBegin).1
  have hworked := Timer.worked_workAll (t.scan timeBegin).2 timeBegin clock (t.scan timeBegin).1
  have hindex : t.object.subscript t.object.wheelIndex = _ := subscript_object t t.wheelIndex_lt
  unfold tick
  simp only [bind, Except.bind, div_timeNum, hindex]
  rw [Timer.tick_eq]
  simp only [advance_object]
  have hexecuted := congrArg Prod.snd hwork
  have htasks := congrArg Prod.fst hwork
  refine congrArg Except.ok (Prod.ext ?_ hexecuted)
  apply TimerObject.ext
  . exact congrArg Nat.cast hworked.timeNum.symm
  . exact hworked.timeWheel.symm
  . exact htasks
  . exact hworked.next.symm
  . exact hworked.priodTimerMap.symm
  . simp only [Timer.object, hworked.timeNum, hworked.wheelIndex]
    rfl

theorem call_object (e : Event) : t.object.call e = .ok (t.after e).object := by
  cases e with
  | addOnceTask needTime time now => apply addOnceTask_object
  | addPriodTask needTime time id now =>
    simp only [call, addPriodTask_object]
    rfl
  | removePriodTask id =>
    simp only [call, removePriodTask_object]
    rfl
  | tick timeBegin clock =>
    simp only [call, tick_object]
    rfl

/-! ### The constructor -/

theorem new_object {timeInterval : Nat} (hpos : 0 < timeInterval) (hle : timeInterval ≤ 1000)
    : new timeInterval = .ok (Timer.new timeInterval hpos hle).object := by
  have hdiv : div 1000 timeInterval = .ok (1000 / timeInterval : Nat) := by
    rw [div_of_ne (by omega)]
    rfl
  unfold new
  simp only [bind, Except.bind, hdiv]
  rw [if_neg (Int.not_lt.mpr (Int.natCast_nonneg _))]
  rfl

theorem new_of_gt {timeInterval : Int} (h : 1000 < timeInterval)
    : ∃ s, new timeInterval = .ok s ∧ s.timeNum = 0 := by
  have hdiv : div 1000 timeInterval = .ok 0 := by
    rw [div_of_ne (by omega), Int.tdiv_eq_zero_of_lt (by decide) h]
  unfold new
  simp only [bind, Except.bind, hdiv]
  exact ⟨_, rfl, rfl⟩

theorem slot_of_empty {s : TimerObject} (h : s.timeNum = 0) (time : Int)
    : s.slot time = .error .divisionByZero := by
  unfold slot
  rw [h]
  rfl

/-! ### Runs -/

def Step (s : TimerObject) (e : Event) (s' : TimerObject) : Prop := s.call e = .ok s'

structure Safe (s : TimerObject) : Prop where
  calls : ∀ e, s.call e ≠ .error .divisionByZero
  slot : ∀ time, ∃ index, s.slot time = .ok index ∧ 0 ≤ index ∧ index < s.timeNum

theorem safe_object : Safe t.object where
  calls e := by
    rw [call_object]
    nofun
  slot time := by
    have hlt := t.slot_lt time
    refine ⟨_, slot_object t time, ?_, ?_⟩
    . omega
    . simp only [Timer.object]
      omega

theorem object_of_run {es : List Event} {s : TimerObject}
    (h : Run Step Run.Always t.object es s) : ∃ t' : Timer, s = t'.object := by
  apply h.invariant ⟨t, rfl⟩
  rintro s e s' ⟨t', rfl⟩ _ hstep
  unfold Step at hstep
  rw [call_object] at hstep
  exact ⟨t'.after e, (Except.ok.inj hstep).symm⟩

/--
No call of a timer divides by zero or leaves the wheel, in exactly the timers whose interval is at
most a second.
-/
theorem safe_iff {timeInterval : Int} (hpos : 1 ≤ timeInterval)
    : (∃ s₀,
        init none timeInterval = .ok s₀ ∧ ∀ es s, Run Step Run.Always s₀ es s → s.Safe)
        ↔
      timeInterval ≤ 1000 := by
  constructor
  . rintro ⟨s₀, hinit, hall⟩
    by_contra hgt
    rcases new_of_gt (Int.not_le.mp hgt) with ⟨s, hs, hempty⟩
    unfold init at hinit
    rw [hs] at hinit
    cases hinit
    rcases (hall [] _ .nil).slot 0 with ⟨index, hindex, _⟩
    rw [slot_of_empty hempty] at hindex
    cases hindex
  . intro hle
    obtain ⟨n, rfl⟩ := Int.eq_ofNat_of_zero_le (by omega : 0 ≤ timeInterval)
    refine ⟨_, new_object (by omega) (by omega), ?_⟩
    intro es s hrun
    rcases object_of_run _ hrun with ⟨t, rfl⟩
    apply safe_object

theorem safe_iff_tenth
    : ∃ s₀, init none 100 = .ok s₀ ∧ ∀ es s, Run Step Run.Always s₀ es s → s.Safe :=
  (safe_iff (by decide)).mpr (by decide)

/--
With an interval of two seconds the first task divides by zero.
-/
theorem not_safe_slow
    : ¬∀ timeInterval, 1 ≤ timeInterval →
        ∃ s₀, init none timeInterval = .ok s₀ ∧ ∀ es s, Run Step Run.Always s₀ es s → s.Safe := by
  intro hall
  rcases hall 2000 (by decide) with ⟨s₀, hinit, hsafe⟩
  cases hinit
  exact (hsafe [] _ .nil).calls (.addOnceTask false 0 0) rfl

end TimerObject
end Fish
