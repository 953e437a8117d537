import FishRpc.Base.Lemmas.Timer
import FishRpc.Lib.Run

/-!
This module contains the periodic tasks of the timer. `removePriodTask` takes the id out of the map
and leaves the task in the wheel. So the map and the wheel agree exactly as long as nothing has been
removed. `History` adds the tasks that have been removed and what has run of them since.
-/

namespace Fish
namespace Timer

inductive Event where
  | addOnceTask (needTime : Bool) (time now : Int)
  | addPriodTask (needTime : Bool) (time id now : Int)
  | removePriodTask (id : Int)
  | tick (timeBegin : Int) (clock : Nat → Int)

structure History where
  timer : Timer
  removed : List TaskPtr
  revived : List Executed

namespace History

def start (timeInterval : Nat) (hpos : 0 < timeInterval) (hle : timeInterval ≤ 1000) : History :=
  ⟨.new timeInterval hpos hle, [], []⟩

def next (s : History) : Event → History
  | .addOnceTask needTime time now => { s with timer := s.timer.addOnceTask needTime time now }
  | .addPriodTask needTime time id now =>
    { s with timer := (s.timer.addPriodTask needTime time id now).2 }
  | .removePriodTask id =>
    let (success, timer) := s.timer.removePriodTask id
    { s with
      timer := timer
      removed := if success then s.removed ++ (s.timer.priodTimerMap id).toList else s.removed }
  | .tick timeBegin clock =>
    let (timer, executed) := s.timer.tick timeBegin clock
    { s with
      timer := timer
      revived := s.revived ++ executed.filter fun e => e.task ∈ s.removed }

-- the task is repeatable and in the slot `i` of the wheel
def Periodic (t : Timer) (i : Nat) (p : TaskPtr) : Prop :=
  p ∈ t.timeWheel i ∧ (t.tasks p).repeatable = true

structure Sound (s : History) : Prop where
  stopped : s.revived = []
  ids : ∀ id, (s.timer.priodTimerMap id).isSome = true ↔
    ∃ i p, Periodic s.timer i p ∧ (s.timer.tasks p).id = id
  once : ∀ i j p q, Periodic s.timer i p → Periodic s.timer j q →
    (s.timer.tasks p).id = (s.timer.tasks q).id → i = j ∧ p = q
  nodup : ∀ i, (s.timer.timeWheel i).Nodup

def RemovesNothing (s : History) : Event → Prop
  | .removePriodTask id => s.timer.priodTimerMap id = none
  | _ => True

structure Inv (s : History) : Prop where
  allocated : ∀ i p, p ∈ s.timer.timeWheel i → p < s.timer.next
  nodup : ∀ i, (s.timer.timeWheel i).Nodup
  single : ∀ i j p, p ∈ s.timer.timeWheel i → p ∈ s.timer.timeWheel j → i = j
  current : ∀ id p, s.timer.priodTimerMap id = some p →
    (∃ i, Periodic s.timer i p) ∧ (s.timer.tasks p).id = id
  owned : ∀ i p, Periodic s.timer i p →
    s.timer.priodTimerMap (s.timer.tasks p).id = some p ∨ p ∈ s.removed
  stale : ∀ p ∈ s.removed, (∃ i, Periodic s.timer i p) ∧
    s.timer.priodTimerMap (s.timer.tasks p).id ≠ some p
  revived : ∀ e ∈ s.revived, e.task ∈ s.removed

variable {s : History}

theorem Inv.sound_iff_removed (h : Inv s) : Sound s ↔ s.removed = [] := by
  constructor
  . intro hsound
    apply List.eq_nil_iff_forall_not_mem.mpr
    intro p hp
    rcases h.stale p hp with ⟨⟨i, hperiodic⟩, hstale⟩
    have hsome := (hsound.ids (s.timer.tasks p).id).mpr ⟨i, p, hperiodic, rfl⟩
    rcases Option.isSome_iff_exists.mp hsome with ⟨q, hq⟩
    rcases h.current _ q hq with ⟨⟨j, hperiodic'⟩, hid⟩
    rcases hsound.once i j p q hperiodic hperiodic' hid.symm with ⟨-, rfl⟩
    apply hstale hq
  . intro hremoved
    have howned : ∀ i p, Periodic s.timer i p →
        s.timer.priodTimerMap (s.timer.tasks p).id = some p := by
      intro i p hperiodic
      have := h.owned i p hperiodic
      simpa [hremoved] using this
    constructor
    . apply List.eq_nil_iff_forall_not_mem.mpr
      intro e he
      have := h.revived e he
      simp [hremoved] at this
    . intro id
      constructor
      . intro hsome
        rcases Option.isSome_iff_exists.mp hsome with ⟨p, hp⟩
        rcases h.current id p hp with ⟨⟨i, hperiodic⟩, hid⟩
        exact ⟨i, p, hperiodic, hid⟩
      . intro hexists
        rcases hexists with ⟨i, p, hperiodic, hid⟩
        rw [← hid]
        rw [howned i p hperiodic]
        rfl
    . intro i j p q hp hq hid
      have hmap := howned i p hp
      rw [hid, howned j q hq] at hmap
      cases hmap
      exact ⟨h.single i j p hp.1 hq.1, rfl⟩
    . apply h.nodup

/-! ### Adding a task -/

-- a new task in a slot of the wheel, together with a new map
def added (t : Timer) (task : TimerTask) (index : Nat) (map : Int → Option TaskPtr) : Timer :=
  { (t.newTask task).2 with priodTimerMap := map }.pushBack index t.next

-- the map after the new task has been entered if it is repeatable
structure Enters (t : Timer) (task : TimerTask) (map : Int → Option TaskPtr) : Prop where
  old : ∀ id p, map id = some p →
    t.priodTimerMap id = some p ∨ (task.repeatable = true ∧ id = task.id ∧ p = t.next)
  keep : ∀ id p, t.priodTimerMap id = some p → map id = some p
  new : task.repeatable = true → map task.id = some t.next

variable {t : Timer} {task : TimerTask} {map : Int → Option TaskPtr}

theorem mem_added (index i : Nat) (p : TaskPtr)
    : p ∈ (added t task index map).timeWheel i ↔
      p ∈ t.timeWheel i ∨ (i = index ∧ p = t.next) := by
  by_cases hi : i = index
  . subst hi
    simp [added, pushBack, newTask]
  . simp [added, pushBack, newTask, hi]

theorem tasks_added_self (index : Nat) : (added t task index map).tasks t.next = task := by
  simp [added, pushBack, newTask]

theorem tasks_added_of_ne (index : Nat) {p : TaskPtr} (hp : p ≠ t.next)
    : (added t task index map).tasks p = t.tasks p := by
  simp [added, pushBack, newTask, hp]

theorem nodup_added (index i : Nat) (hold : (t.timeWheel i).Nodup) (hnew : t.next ∉ t.timeWheel i)
    : ((added t task index map).timeWheel i).Nodup := by
  by_cases hi : i = index
  . subst hi
    have hconcat := hold.concat hnew
    simpa [added, pushBack, newTask] using hconcat
  . simpa [added, pushBack, newTask, hi] using hold

/-! ### What an event does -/

theorem next_addPriodTask_old {id : Int} {p : TaskPtr} (hfound : s.timer.priodTimerMap id = some p)
    (needTime : Bool) (time now : Int) : s.next (.addPriodTask needTime time id now) = s := by
  simp [next, addPriodTask, hfound]

theorem next_addPriodTask_new {id : Int} (hfound : s.timer.priodTimerMap id = none)
    (needTime : Bool) (time now : Int)
    : s.next (.addPriodTask needTime time id now)
        =
      { s with
        timer :=
          added s.timer (.new needTime time true id now) (s.timer.slot time)
            (Function.update s.timer.priodTimerMap id (some s.timer.next)) } := by
  simp only [next, addPriodTask, hfound]
  rfl

theorem next_removePriodTask_none {id : Int} (hfound : s.timer.priodTimerMap id = none)
    : s.next (.removePriodTask id) = s := by
  simp [next, removePriodTask, hfound]

theorem next_removePriodTask_some {id : Int} {p : TaskPtr}
    (hfound : s.timer.priodTimerMap id = some p)
    : s.next (.removePriodTask id)
        =
      { s with
        timer :=
          { s.timer with priodTimerMap := Function.update s.timer.priodTimerMap id none }
        removed := s.removed ++ [p] } := by
  simp [next, removePriodTask, hfound]

section

variable (h : Inv s)

include h

theorem Inv.next_notMem (i : Nat) : s.timer.next ∉ s.timer.timeWheel i := by
  intro hmem
  apply Nat.lt_irrefl _ (h.allocated i _ hmem)

theorem Inv.ne_next {i : Nat} {p : TaskPtr} (hp : p ∈ s.timer.timeWheel i) : p ≠ s.timer.next := by
  intro heq
  apply h.next_notMem i
  rw [← heq]
  apply hp

theorem Inv.periodic_added (index i : Nat) (p : TaskPtr)
    : Periodic (added s.timer task index map) i p ↔
      Periodic s.timer i p ∨ (i = index ∧ p = s.timer.next ∧ task.repeatable = true) := by
  unfold Periodic
  rw [mem_added]
  by_cases hp : p = s.timer.next
  . subst hp
    simp [tasks_added_self, h.next_notMem]
  . simp [tasks_added_of_ne index hp, hp]

theorem Inv.removed_ne_next {p : TaskPtr} (hp : p ∈ s.removed) : p ≠ s.timer.next := by
  rcases (h.stale p hp).1 with ⟨i, hperiodic⟩
  apply h.ne_next hperiodic.1

theorem Inv.added (index : Nat) (hmap : Enters s.timer task map)
    : Inv { s with timer := History.added s.timer task index map } := by
  have hold {i : Nat} {p : TaskPtr} (hp : Periodic s.timer i p)
      : Periodic (History.added s.timer task index map) i p ∧
        (History.added s.timer task index map).tasks p = s.timer.tasks p :=
    ⟨(h.periodic_added index i p).mpr (Or.inl hp), tasks_added_of_ne index (h.ne_next hp.1)⟩
  constructor
  . intro i p hp
    rcases (mem_added index i p).mp hp with hp | ⟨_, hp⟩
    . apply Nat.lt_succ_of_lt (h.allocated i p hp)
    . rw [hp]
      apply Nat.lt_succ_self
  . intro i
    apply nodup_added index i (h.nodup i) (h.next_notMem i)
  . intro i j p hi hj
    rcases (mem_added index i p).mp hi with hi | ⟨hi, hp⟩
    . rcases (mem_added index j p).mp hj with hj | ⟨_, hp⟩
      . apply h.single i j p hi hj
      . exact absurd hp (h.ne_next hi)
    . rcases (mem_added index j p).mp hj with hj | ⟨hj, _⟩
      . exact absurd hp (h.ne_next hj)
      . rw [hi, hj]
  . intro id p hp
    rcases hmap.old id p hp with hp | ⟨hrepeatable, hid, hp⟩
    . rcases h.current id p hp with ⟨⟨i, hperiodic⟩, hid⟩
      refine ⟨⟨i, (hold hperiodic).1⟩, ?_⟩
      simp only [(hold hperiodic).2]
      apply hid
    . subst hp
      refine ⟨⟨index, (h.periodic_added index index _).mpr (Or.inr ⟨rfl, rfl, hrepeatable⟩)⟩, ?_⟩
      simp only [tasks_added_self]
      apply hid.symm
  . intro i p hp
    rcases (h.periodic_added index i p).mp hp with hp | ⟨_, hp, hrepeatable⟩
    . simp only [(hold hp).2]
      rcases h.owned i p hp with howned | hremoved
      . exact Or.inl (hmap.keep _ p howned)
      . exact Or.inr hremoved
    . subst hp
      simp only [tasks_added_self]
      exact Or.inl (hmap.new hrepeatable)
  . intro p hp
    rcases h.stale p hp with ⟨⟨i, hperiodic⟩, hstale⟩
    refine ⟨⟨i, (hold hperiodic).1⟩, ?_⟩
    simp only [(hold hperiodic).2]
    intro hcurrent
    rcases hmap.old _ p hcurrent with hcurrent | ⟨_, _, hnext⟩
    . apply hstale hcurrent
    . apply h.removed_ne_next hp hnext
  . apply h.revived

/-! ### Every event -/

theorem Inv.addOnceTask (needTime : Bool) (time now : Int)
    : Inv (s.next (.addOnceTask needTime time now)) := by
  have hmap : Enters s.timer (.new needTime time false 0 now) s.timer.priodTimerMap := by
    constructor
    . intro id p hp
      apply Or.inl hp
    . intro id p hp
      apply hp
    . intro hrepeatable
      cases hrepeatable
  apply h.added (s.timer.slot time) hmap

theorem Inv.addPriodTask (needTime : Bool) (time id now : Int)
    : Inv (s.next (.addPriodTask needTime time id now)) := by
  cases hfound : s.timer.priodTimerMap id with
  | some p =>
    rw [next_addPriodTask_old hfound]
    apply h
  | none =>
    rw [next_addPriodTask_new hfound]
    have hmap : Enters s.timer (.new needTime time true id now)
        (Function.update s.timer.priodTimerMap id (some s.timer.next)) := by
      constructor
      . intro id' p hp
        by_cases hid : id' = id
        . subst hid
          rw [Function.update_self] at hp
          exact Or.inr ⟨rfl, rfl, (Option.some.inj hp).symm⟩
        . rw [Function.update_of_ne hid] at hp
          apply Or.inl hp
      . intro id' p hp
        have hid : id' ≠ id := by
          intro hid
          rw [hid, hfound] at hp
          cases hp
        rw [Function.update_of_ne hid]
        apply hp
      . intro _
        apply Function.update_self
    apply h.added (s.timer.slot time) hmap

theorem Inv.removePriodTask (id : Int) : Inv (s.next (.removePriodTask id)) := by
  cases hfound : s.timer.priodTimerMap id with
  | none =>
    rw [next_removePriodTask_none hfound]
    apply h
  | some p =>
    rw [next_removePriodTask_some hfound]
    rcases h.current id p hfound with ⟨hperiodic, hid⟩
    have hold {id' : Int} {q : TaskPtr}
        (hq : Function.update s.timer.priodTimerMap id none id' = some q)
        : s.timer.priodTimerMap id' = some q := by
      by_cases hne : id' = id
      . subst hne
        rw [Function.update_self] at hq
        cases hq
      . rw [Function.update_of_ne hne] at hq
        apply hq
    constructor
    . apply h.allocated
    . apply h.nodup
    . apply h.single
    . intro id' q hq
      apply h.current id' q (hold hq)
    . intro i q hq
      rcases h.owned i q hq with howned | hremoved
      . by_cases hne : (s.timer.tasks q).id = id
        . rw [hne, hfound] at howned
          cases howned
          right
          apply List.mem_append_right _ List.mem_cons_self
        . left
          simp only [Function.update_of_ne hne]
          apply howned
      . right
        apply List.mem_append_left _ hremoved
    . intro q hq
      rcases List.mem_append.mp hq with hq | hq
      . refine ⟨(h.stale q hq).1, ?_⟩
        intro hmap
        apply (h.stale q hq).2 (hold hmap)
      . rw [List.mem_singleton] at hq
        subst hq
        refine ⟨hperiodic, ?_⟩
        simp [hid]
    . intro e he
      apply List.mem_append_left _ (h.revived e he)

theorem Inv.tick (timeBegin : Int) (clock : Nat → Int) : Inv (s.next (.tick timeBegin clock)) := by
  have hticked := ticked_tick s.timer timeBegin clock
  have hnew {i : Nat} {p : TaskPtr} (hp : Periodic s.timer i p)
      : Periodic (s.timer.tick timeBegin clock).1 i p :=
    ⟨hticked.keep i p hp.1 hp.2, (hticked.repeatable p).trans hp.2⟩
  have hold {i : Nat} {p : TaskPtr} (hp : Periodic (s.timer.tick timeBegin clock).1 i p)
      : Periodic s.timer i p :=
    ⟨(hticked.sublist i).mem hp.1, (hticked.repeatable p).symm.trans hp.2⟩
  unfold next
  constructor
  . intro i p hp
    rw [hticked.next]
    apply h.allocated i p ((hticked.sublist i).mem hp)
  . intro i
    apply (h.nodup i).sublist (hticked.sublist i)
  . intro i j p hi hj
    apply h.single i j p ((hticked.sublist i).mem hi) ((hticked.sublist j).mem hj)
  . intro id p hp
    rw [hticked.priodTimerMap] at hp
    rcases h.current id p hp with ⟨⟨i, hperiodic⟩, hid⟩
    exact ⟨⟨i, hnew hperiodic⟩, (hticked.id p).trans hid⟩
  . intro i p hp
    rw [hticked.priodTimerMap, hticked.id]
    apply h.owned i p (hold hp)
  . intro p hp
    rcases h.stale p hp with ⟨⟨i, hperiodic⟩, hstale⟩
    refine ⟨⟨i, hnew hperiodic⟩, ?_⟩
    rw [hticked.priodTimerMap, hticked.id]
    apply hstale
  . intro e he
    rcases List.mem_append.mp he with he | he
    . apply h.revived e he
    . apply of_decide_eq_true (List.mem_filter.mp he).2

theorem Inv.next (e : Event) : Inv (s.next e) := by
  cases e with
  | addOnceTask needTime time now => apply h.addOnceTask
  | addPriodTask needTime time id now => apply h.addPriodTask
  | removePriodTask id => apply h.removePriodTask
  | tick timeBegin clock => apply h.tick

end

theorem inv_start (timeInterval : Nat) (hpos : 0 < timeInterval) (hle : timeInterval ≤ 1000)
    : Inv (start timeInterval hpos hle) := by
  constructor <;> simp [start, Timer.new, Periodic]

theorem removed_next_iff (s : History) (e : Event)
    : (s.next e).removed = [] ↔ s.removed = [] ∧ RemovesNothing s e := by
  cases e with
  | addOnceTask needTime time now => simp [next, RemovesNothing]
  | addPriodTask needTime time id now => simp [next, RemovesNothing]
  | removePriodTask id =>
    cases hfound : s.timer.priodTimerMap id with
    | none =>
      rw [next_removePriodTask_none hfound]
      simp [RemovesNothing, hfound]
    | some p =>
      rw [next_removePriodTask_some hfound]
      simp [RemovesNothing, hfound]
  | tick timeBegin clock => simp [next, RemovesNothing]

/--
The map agrees with the wheel after exactly the runs in which no id is removed.
-/
theorem sound_iff (timeInterval : Nat) (hpos : 0 < timeInterval) (hle : timeInterval ≤ 1000)
    (es : List Event)
    : let s₀ := start timeInterval hpos hle
      Sound (es.foldl next s₀) ↔ Run (Run.Next next) RemovesNothing s₀ es (es.foldl next s₀) := by
  intro s₀
  have hinv : ∀ s e s', Inv s → Run.Next next s e s' → Inv s' := by
    intro s e s' hs hstep
    rw [hstep]
    apply hs.next
  have hiff : ∀ s e s', Inv s → Run.Next next s e s' →
      (s'.removed = [] ↔ s.removed = [] ∧ RemovesNothing s e) := by
    intro s e s' _ hstep
    rw [hstep]
    apply removed_next_iff
  have hrun := Run.foldl next s₀ es
  have hinit : Inv s₀ := inv_start timeInterval hpos hle
  have hend : Inv (es.foldl next s₀) :=
    hrun.invariant hinit fun s e s' hs _ hstep => hinv s e s' hs hstep
  have hstart : s₀.removed = [] := rfl
  rw [hend.sound_iff_removed]
  apply Run.holds_iff hinit hstart hinv hiff hrun

theorem sound_iff_added
    : let s₀ := start 100 (by decide) (by decide)
      let es : List Event := [.addPriodTask true 100 1 0, .tick 100 fun _ => 100]
      Sound (es.foldl next s₀) ↔ Run (Run.Next next) RemovesNothing s₀ es (es.foldl next s₀) := by
  intro s₀ es
  apply sound_iff 100 (by decide) (by decide) es

-- a task that is removed before its first tick
theorem not_sound_removed
    : ¬Sound ([.addPriodTask false 100 1 0, .removePriodTask 1, .tick 100 fun _ => 100].foldl next
        (start 100 (by decide) (by decide))) := by
  intro hsound
  have hstopped := hsound.stopped
  revert hstopped
  decide

end History
end Timer
end Fish
