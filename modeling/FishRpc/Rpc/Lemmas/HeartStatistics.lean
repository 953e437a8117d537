import FishRpc.Rpc.Lemmas.HeartManager
import Mathlib.Algebra.Order.BigOperators.Group.List

/-!
This module contains the statistics of a `HeartManager`. A recycled node keeps the mark that it has
been counted, so nothing is counted any more once the window is full, and the counters are narrower
than the numbers they stand for. The average divides the lost heartbeats by the answered ones.
-/

namespace Fish
namespace HeartManager

open NodeList

variable {s s' : HeartManager} {maxSize : Nat}

/-! ### The counters -/

def unmarked (nodes : List HeatTask) : List HeatTask := nodes.filter fun node => !node.statistics

def lost (nodes : List HeatTask) : Nat := nodes.countP fun node => !decide node.Answered

def answered (nodes : List HeatTask) : Nat := nodes.countP fun node => decide node.Answered

def responseTime (node : HeatTask) : Int :=
  if node.Answered then node.recvTime.toInt - node.sendTime.toInt else 0

def answerTime (nodes : List HeatTask) : Int := (nodes.map responseTime).sum

theorem responseTime_nonneg (node : HeatTask) : 0 ≤ responseTime node := by
  unfold responseTime
  split
  . rename_i h
    have hlt := BitVec.slt_iff_toInt_lt.mp h
    omega
  . apply Int.le_refl

theorem answerTime_nonneg (nodes : List HeatTask) : 0 ≤ answerTime nodes := by
  apply List.sum_nonneg
  intro t ht
  rcases List.mem_map.mp ht with ⟨node, _, rfl⟩
  apply responseTime_nonneg

theorem lost_add_answered (nodes : List HeatTask) : lost nodes + answered nodes = nodes.length := by
  have hlen : nodes.length = _ :=
    List.length_eq_countP_add_countP fun node => decide (HeatTask.Answered node)
  unfold lost answered
  simp only [Bool.not_eq_true, Bool.decide_eq_false] at hlen
  omega

-- the counters count `counted`, each modulo its width
structure Tally (s : HeartManager) (counted : List HeatTask) : Prop where
  totalNum : s.totalNum = BitVec.ofNat 32 counted.length
  lossNum : s.lossNum = BitVec.ofNat 16 (lost counted)
  totalTime : s.totalTime = BitVec.ofInt 64 (answerTime counted)

theorem tally_init (maxSize : Nat) : Tally (init maxSize) [] := ⟨rfl, rfl, rfl⟩

theorem Tally.congr {counted : List HeatTask} (h : Tally s counted) (hsame : SameStatistics s s')
    : Tally s' counted where
  totalNum := hsame.totalNum.trans h.totalNum
  lossNum := hsame.lossNum.trans h.lossNum
  totalTime := hsame.totalTime.trans h.totalTime

theorem Tally.count {counted : List HeatTask} (h : Tally s counted) (node : HeatTask)
    : Tally (s.count node) (counted ++ unmarked [node]) := by
  unfold HeartManager.count
  by_cases hmark : node.statistics
  . rw [if_pos hmark]
    simpa [unmarked, hmark] using h
  . rw [if_neg hmark]
    have hnode : unmarked [node] = [node] := by simp [unmarked, hmark]
    have hnum : s.totalNum + 1 = BitVec.ofNat 32 (counted ++ [node]).length := by
      rw [h.totalNum, List.length_append, BitVec.ofNat_add]
      rfl
    rw [hnode]
    by_cases hanswered : node.Answered
    . simp only
      rw [if_pos hanswered]
      refine ⟨hnum, ?_, ?_⟩
      . rw [h.lossNum]
        simp [lost, hanswered]
      . simp only
        rw [h.totalTime]
        simp only [answerTime, List.map_append, List.sum_append, List.map_cons, List.map_nil,
          List.sum_cons, List.sum_nil, responseTime, if_pos hanswered]
        apply BitVec.eq_of_toInt_eq
        simp [BitVec.toInt_add, BitVec.toInt_sub, BitVec.toInt_ofInt]
    . simp only
      rw [if_neg hanswered]
      refine ⟨hnum, ?_, ?_⟩
      . simp only
        rw [h.lossNum]
        simp [lost, hanswered, BitVec.ofNat_add]
      . rw [h.totalTime]
        simp [answerTime, responseTime, hanswered]

theorem Tally.updateMessage {counted : List HeatTask} (h : Tally s counted)
    : Tally s.updateMessage (counted ++ unmarked s.list.values) := by
  have hfold (nodes : List HeatTask) {s : HeartManager} {counted : List HeatTask}
      (h : Tally s counted) : Tally (nodes.foldl HeartManager.count s) (counted ++ unmarked nodes) := by
    induction nodes generalizing s counted with
    | nil => simpa [unmarked] using h
    | cons node nodes ih =>
      have hnext := ih (h.count node)
      rw [List.append_assoc] at hnext
      rw [List.foldl_cons]
      simpa [unmarked, ← List.filter_append] using hnext
  have hcounted := hfold s.list.values h
  rw [← forEach_fst (g := fun node => { node with statistics := true })] at hcounted
  exact ⟨hcounted.totalNum, hcounted.lossNum, hcounted.totalTime⟩

theorem lossNum_eq_iff {counted : List HeatTask} (h : Tally s counted)
    : s.lossNum.toNat = lost counted ↔ lost counted < 2 ^ 16 := by
  rw [h.lossNum, BitVec.toNat_ofNat]
  exact Nat.mod_eq_iff_lt (by decide)

theorem totalNum_eq_iff {counted : List HeatTask} (h : Tally s counted)
    : s.totalNum.toNat = counted.length ↔ counted.length < 2 ^ 32 := by
  rw [h.totalNum, BitVec.toNat_ofNat]
  exact Nat.mod_eq_iff_lt (by decide)

theorem toNat_totalTime {counted : List HeatTask} (h : Tally s counted)
    : (s.totalTime.toNat : Int) = answerTime counted % 2 ^ 64 := by
  rw [h.totalTime, BitVec.toNat_ofInt]
  have hnonneg := Int.emod_nonneg (answerTime counted) (by decide : (2 ^ 64 : Int) ≠ 0)
  omega

theorem totalTime_eq_iff {counted : List HeatTask} (h : Tally s counted)
    : (s.totalTime.toNat : Int) = answerTime counted ↔ answerTime counted < 2 ^ 64 := by
  have hnonneg := answerTime_nonneg counted
  rw [toNat_totalTime h]
  omega

namespace Observed

variable {s s' : Observed} {es : List Event}

theorem tally_step {e : Event} (hpos : 1 ≤ maxSize) (hs : Kept maxSize s)
    (htally : Tally s.manager s.counted) (h : Step s e s') : Tally s'.manager s'.counted := by
  cases e with
  | insertNode node now =>
    rcases step_insertNode (hs.pos hpos) h with ⟨heq, hsame, _⟩
    rw [heq]
    apply htally.congr hsame
  | updateMessage =>
    cases h
    apply htally.updateMessage
  | sendHeart =>
    cases h
    apply htally
  | recvHeart content =>
    rw [step_recvHeart h]
    apply htally

theorem tally_of_run (hpos : 1 ≤ maxSize) (h : Run Step Run.Always (init maxSize) es s)
    : Tally s.manager s.counted := by
  have hboth : Kept maxSize s ∧ Tally s.manager s.counted := by
    apply h.invariant ⟨kept_init maxSize, tally_init maxSize⟩
    intro s e s' hs _ hstep
    exact ⟨hs.1.step hpos hstep, tally_step hpos hs.1 hs.2 hstep⟩
  apply hboth.2

/-! ### The totals -/

-- `updateMessage` is called before each `insertNode`
def Prepared (s : Observed) : Event → Prop
  | .insertNode _ _ => s.updated = true
  | _ => True

structure Accurate (s : Observed) : Prop where
  totalNum : s.manager.totalNum.toNat = s.inserted.length
  lossNum : s.manager.lossNum.toNat = lost s.inserted
  totalTime : (s.manager.totalTime.toNat : Int) = answerTime s.inserted

structure Countable (maxSize : Nat) (nodes : List HeatTask) : Prop where
  window : nodes.length ≤ maxSize
  unmarked : ∀ node ∈ nodes, node.statistics = false
  num : nodes.length < 2 ^ 32
  loss : lost nodes < 2 ^ 16
  time : answerTime nodes < 2 ^ 64

-- only the nodes that fill the window for the first time are counted
structure Surveyed (maxSize : Nat) (s : Observed) : Prop where
  kept : Kept maxSize s
  tally : Tally s.manager s.counted
  counted : s.counted ++ unmarked s.manager.list.values = unmarked (s.inserted.take maxSize)
  marked : s.updated = true → unmarked s.manager.list.values = []

theorem surveyed_init (maxSize : Nat) : Surveyed maxSize (init maxSize) :=
  ⟨kept_init maxSize, tally_init maxSize, by simp [init, HeartManager.init, unmarked], nofun⟩

theorem unmarked_append (xs ys : List HeatTask)
    : unmarked (xs ++ ys) = unmarked xs ++ unmarked ys := List.filter_append ..

theorem unmarked_updateMessage (s : HeartManager) : unmarked s.updateMessage.list.values = [] := by
  rw [values_updateMessage]
  simp [unmarked]

theorem Surveyed.insertNode {node : HeatTask} {now : BitVec 64} (hpos : 1 ≤ maxSize)
    (hs : Surveyed maxSize s) (hupdated : s.updated = true) (h : Step s (.insertNode node now) s')
    : s'.counted ++ unmarked s'.manager.list.values = unmarked (s'.inserted.take maxSize) := by
  have hlen := hs.kept.windowed.length
  have hmax := hs.kept.maxSize
  have hcounted := hs.counted
  have hmarked := hs.marked hupdated
  rw [hmarked, List.append_nil] at hcounted
  rcases step_insertNode (hs.kept.pos hpos) h with ⟨heq, _, hplaced⟩
  rw [heq]
  simp only
  cases hplaced with
  | pushed hroom hvalues =>
    rw [hvalues, unmarked_append, hmarked, List.nil_append, hcounted]
    rw [List.take_of_length_le (by omega), ← unmarked_append]
    rw [List.take_of_length_le]
    rw [List.length_append, List.length_singleton]
    omega
  | recycled old rest hfull hbefore hafter =>
    rw [hbefore] at hmarked
    have hrest : unmarked (rest ++ [old.assign node]) = [] := by
      simp only [unmarked, List.filter_cons, List.filter_append, HeatTask.assign] at hmarked ⊢
      split at hmarked
      . cases hmarked
      . rename_i hold
        simp [hmarked, hold]
    rw [hafter, hrest, List.append_nil, hcounted]
    rw [List.take_append_of_le_length]
    omega

theorem Surveyed.step {e : Event} (hpos : 1 ≤ maxSize) (hs : Surveyed maxSize s)
    (hprepared : Prepared s e) (h : Step s e s') : Surveyed maxSize s' := by
  have hkept := hs.kept.step hpos h
  have htally := tally_step hpos hs.kept hs.tally h
  cases e with
  | insertNode node now =>
    refine ⟨hkept, htally, hs.insertNode hpos hprepared h, ?_⟩
    rcases step_insertNode (hs.kept.pos hpos) h with ⟨heq, _, _⟩
    rw [heq]
    nofun
  | updateMessage =>
    cases h
    refine ⟨hkept, htally, ?_, fun _ => unmarked_updateMessage _⟩
    simp only
    rw [unmarked_updateMessage, List.append_nil]
    apply hs.counted
  | sendHeart =>
    cases h
    exact ⟨hkept, htally, hs.counted, hs.marked⟩
  | recvHeart content =>
    rw [step_recvHeart h] at hkept htally ⊢
    exact ⟨hkept, htally, hs.counted, hs.marked⟩

-- fewer nodes are counted than there are, unless all are in the window and unmarked
theorem all_counted {nodes : List HeatTask}
    (h : nodes.length ≤ (unmarked (nodes.take maxSize)).length)
    : nodes.length ≤ maxSize ∧ unmarked nodes = nodes := by
  have hle : (unmarked (nodes.take maxSize)).length ≤ (nodes.take maxSize).length :=
    List.length_filter_le _ _
  rw [List.length_take] at hle
  have hwindow : nodes.length ≤ maxSize := by omega
  rw [List.take_of_length_le hwindow] at h
  exact ⟨hwindow, List.filter_sublist.eq_of_length_le h⟩

theorem unmarked_eq_self_iff (nodes : List HeatTask)
    : unmarked nodes = nodes ↔ ∀ node ∈ nodes, node.statistics = false := by
  simp [unmarked, List.filter_eq_self]

/--
After an update the totals are those of all heartbeats exactly if the window has never been full and
the counters are wide enough.
-/
theorem accurate_iff (hpos : 1 ≤ maxSize)
    (h : Run Step Prepared (init maxSize) (es ++ [.updateMessage]) s)
    : Accurate s ↔ Countable maxSize s.inserted := by
  have hs : Surveyed maxSize s := by
    apply h.invariant (surveyed_init maxSize)
    exact fun s e s' hs hprepared hstep => hs.step hpos hprepared hstep
  have hcounted : s.counted = unmarked (s.inserted.take maxSize) := by
    rcases h.of_concat with ⟨s₁, _, _, hstep⟩
    have hupdated : s.updated = true := by
      cases hstep
      rfl
    rw [← hs.counted, hs.marked hupdated, List.append_nil]
  constructor
  . intro haccurate
    have hnum := haccurate.totalNum
    rw [hs.tally.totalNum, BitVec.toNat_ofNat] at hnum
    have hmod := Nat.mod_le s.counted.length (2 ^ 32)
    have hcount : s.inserted.length ≤ (unmarked (s.inserted.take maxSize)).length := by
      rw [← hcounted]
      omega
    rcases all_counted hcount with ⟨hwindow, hall⟩
    rw [List.take_of_length_le hwindow, hall] at hcounted
    have htally := hs.tally
    rw [hcounted] at htally
    exact
      { window := hwindow
        unmarked := (unmarked_eq_self_iff _).mp hall
        num := (totalNum_eq_iff htally).mp haccurate.totalNum
        loss := (lossNum_eq_iff htally).mp haccurate.lossNum
        time := (totalTime_eq_iff htally).mp haccurate.totalTime }
  . intro hcountable
    have hall : s.counted = s.inserted := by
      rw [hcounted, List.take_of_length_le hcountable.window]
      apply (unmarked_eq_self_iff _).mpr hcountable.unmarked
    have htally := hs.tally
    rw [hall] at htally
    exact
      { totalNum := (totalNum_eq_iff htally).mpr hcountable.num
        lossNum := (lossNum_eq_iff htally).mpr hcountable.loss
        totalTime := (totalTime_eq_iff htally).mpr hcountable.time }

instance (s : Observed) (e : Event) : Decidable (Prepared s e) := by
  cases e <;> unfold Prepared <;> infer_instance

-- one heartbeat is answered after 5 ms, the next one is not
def beats : List Event :=
  [.updateMessage, .insertNode { sendTime := 10, recvTime := 15 } 10, .updateMessage,
    .insertNode { sendTime := 20, id := 1 } 20]

theorem run_beats {maxSize : Nat} {P : Observed → Prop} [DecidablePred P]
    (h : ((Run.execute step Prepared (init maxSize) (beats ++ [.updateMessage])).map
      fun s => decide (P s)) = some true)
    : ∃ s, Run Step Prepared (init maxSize) (beats ++ [.updateMessage]) s ∧ P s := by
  rcases Option.map_eq_some_iff.mp h with ⟨s, hs, hP⟩
  exact ⟨s, Run.of_execute (fun _ _ _ hstep => hstep) hs, of_decide_eq_true hP⟩

theorem accurate_iff_beats
    : ∃ s, Run Step Prepared (init 3) (beats ++ [.updateMessage]) s ∧ Accurate s := by
  have hcountable : ∃ s, Run Step Prepared (init 3) (beats ++ [.updateMessage]) s ∧
      s.inserted = [{ sendTime := 10, recvTime := 15 }, { sendTime := 20, id := 1 }] := by
    apply run_beats
    decide +kernel
  rcases hcountable with ⟨s, hs, hinserted⟩
  refine ⟨s, hs, (accurate_iff (by decide) hs).mpr ?_⟩
  rw [hinserted]
  exact
    { window := by decide
      unmarked := by decide
      num := by decide
      loss := by decide
      time := by decide }

/--
With a window of one heartbeat the second one is not counted.
-/
theorem not_accurate_recycled
    : ¬∀ maxSize es s,
        1 ≤ maxSize → Run Step Prepared (init maxSize) (es ++ [.updateMessage]) s → Accurate s := by
  intro hall
  have hcounts : ∃ s, Run Step Prepared (init 1) (beats ++ [.updateMessage]) s ∧
      s.manager.totalNum.toNat ≠ s.inserted.length := by
    apply run_beats
    decide +kernel
  rcases hcounts with ⟨s, hs, hne⟩
  exact hne (hall 1 beats s (by decide) hs).totalNum

/-! ### The average -/

structure Averages (s : Observed) : Prop where
  divides : s.manager.aveTime ≠ none
  average : 0 < answered s.counted → ∀ t, s.manager.aveTime = some t →
    t.toInt = (s.manager.totalTime.toNat / answered s.counted : Nat)

-- `totalNum_ - lossNum_`: a loss count that has gone round is not subtracted
def divisor (nodes : List HeatTask) : Nat :=
  (answered nodes + lost nodes / 2 ^ 16 * 2 ^ 16) % 2 ^ 32

theorem divisor_of_lt {nodes : List HeatTask} (hloss : lost nodes < 2 ^ 16)
    (hnum : nodes.length < 2 ^ 32) : divisor nodes = answered nodes := by
  have hlen := lost_add_answered nodes
  unfold divisor
  omega

-- the lost heartbeats per answered one are as many as the milliseconds per answered one
structure Balanced (nodes : List HeatTask) : Prop where
  divides : divisor nodes ≠ 0
  balance : 0 < answered nodes →
    lost nodes % 2 ^ 16 / divisor nodes = (answerTime nodes).toNat % 2 ^ 64 / answered nodes ∧
    lost nodes % 2 ^ 16 / divisor nodes < 2 ^ 15

/--
As long as nothing goes round, some heartbeat has to be answered and the two quotients have to agree.
-/
theorem balanced_iff {nodes : List HeatTask} (hloss : lost nodes < 2 ^ 16)
    (hnum : nodes.length < 2 ^ 32) (htime : answerTime nodes < 2 ^ 64)
    : Balanced nodes
        ↔
      0 < answered nodes ∧
      lost nodes / answered nodes = (answerTime nodes).toNat / answered nodes ∧
      lost nodes / answered nodes < 2 ^ 15 := by
  have hnonneg := answerTime_nonneg nodes
  have hdivisor := divisor_of_lt hloss hnum
  have hlost : lost nodes % 2 ^ 16 = lost nodes := Nat.mod_eq_of_lt hloss
  have htotal : (answerTime nodes).toNat % 2 ^ 64 = (answerTime nodes).toNat := by
    apply Nat.mod_eq_of_lt
    omega
  constructor
  . rintro ⟨hdivides, hbalance⟩
    rw [hdivisor] at hdivides hbalance
    rw [hlost, htotal] at hbalance
    have hpos := Nat.pos_of_ne_zero hdivides
    exact ⟨hpos, hbalance hpos⟩
  . rintro ⟨hpos, hbalance⟩
    refine ⟨?_, fun _ => ?_⟩
    . rw [hdivisor]
      exact Nat.ne_of_gt hpos
    . rw [hdivisor, hlost, htotal]
      exact hbalance

theorem toNat_divisor {nodes : List HeatTask} {s : HeartManager} (h : Tally s nodes)
    : (s.totalNum - s.lossNum.setWidth 32).toNat = divisor nodes := by
  have hlen := lost_add_answered nodes
  have hloss : (s.lossNum.setWidth 32).toNat = lost nodes % 2 ^ 16 := by
    rw [BitVec.toNat_setWidth, h.lossNum, BitVec.toNat_ofNat]
    omega
  rw [BitVec.toNat_sub, hloss, h.totalNum, BitVec.toNat_ofNat]
  unfold divisor
  omega

theorem aveTime_eq {nodes : List HeatTask} {s : HeartManager} (h : Tally s nodes)
    : s.aveTime
        =
      if divisor nodes = 0 then none
      else some (BitVec.ofNat 16 (lost nodes % 2 ^ 16 / divisor nodes)) := by
  have hdivisor := toNat_divisor h
  have hzero : s.totalNum - s.lossNum.setWidth 32 = 0 ↔ divisor nodes = 0 := by
    rw [← hdivisor, ← BitVec.toNat_inj]
    rfl
  have hquotient : (s.lossNum.setWidth 32 / (s.totalNum - s.lossNum.setWidth 32)).setWidth 16
      = BitVec.ofNat 16 (lost nodes % 2 ^ 16 / divisor nodes) := by
    apply BitVec.eq_of_toNat_eq
    rw [BitVec.toNat_setWidth, BitVec.toNat_udiv, hdivisor]
    rw [BitVec.toNat_setWidth, h.lossNum, BitVec.toNat_ofNat, BitVec.toNat_ofNat]
    rw [Nat.mod_eq_of_lt (by omega : lost nodes % 2 ^ 16 < 2 ^ 32)]
  unfold aveTime
  simp only
  rw [hquotient]
  simp only [hzero]

theorem toInt_quotient_iff {q : Nat} (hq : q < 2 ^ 16) (n : Nat)
    : (BitVec.ofNat 16 q).toInt = n ↔ q = n ∧ q < 2 ^ 15 := by
  rw [BitVec.toInt_eq_toNat_bmod, BitVec.toNat_ofNat]
  rw [Nat.mod_eq_of_lt hq]
  rw [Int.bmod_def]
  split <;> omega

/--
The average is right exactly if there is something to divide by and the lost heartbeats happen to
make the same quotient as the response times.
-/
theorem averages_iff (hpos : 1 ≤ maxSize) (h : Run Step Run.Always (init maxSize) es s)
    : Averages s ↔ Balanced s.counted := by
  have htally := tally_of_run hpos h
  have htime : s.manager.totalTime.toNat = (answerTime s.counted).toNat % 2 ^ 64 := by
    have hnat := toNat_totalTime htally
    have hnonneg := answerTime_nonneg s.counted
    omega
  have hq : lost s.counted % 2 ^ 16 / divisor s.counted < 2 ^ 16 := by
    apply Nat.lt_of_le_of_lt (Nat.div_le_self _ _)
    apply Nat.mod_lt _ (by decide)
  have haverage := aveTime_eq htally
  by_cases hzero : divisor s.counted = 0
  . rw [if_pos hzero] at haverage
    refine iff_of_false ?_ ?_
    . exact fun h => h.divides haverage
    . exact fun h => h.divides hzero
  . rw [if_neg hzero] at haverage
    constructor
    . intro haverages
      refine ⟨hzero, fun hanswered => ?_⟩
      have heq := haverages.average hanswered _ haverage
      rw [htime] at heq
      exact (toInt_quotient_iff hq _).mp heq
    . intro hbalanced
      refine ⟨by simp [haverage], fun hanswered t ht => ?_⟩
      rw [haverage] at ht
      cases ht
      rw [htime]
      exact (toInt_quotient_iff hq _).mpr (hbalanced.balance hanswered)

-- one heartbeat is answered after 1 ms, and one is lost
def balancedBeats : List Event :=
  [.insertNode { sendTime := 10, recvTime := 11 } 10, .insertNode { sendTime := 20, id := 1 } 20,
    .updateMessage]

theorem averages_iff_balanced
    : ∃ s, Run Step Run.Always (init 3) balancedBeats s ∧ Averages s := by
  have hcounted : (Run.execute step Run.Always (init 3) balancedBeats).map Observed.counted
      = some [{ sendTime := 10, recvTime := 11 }, { sendTime := 20, id := 1 }] := by
    decide +kernel
  rcases Option.map_eq_some_iff.mp hcounted with ⟨s, hs, heq⟩
  have hrun : Run Step Run.Always (init 3) balancedBeats s :=
    Run.of_execute (fun _ _ _ hstep => hstep) hs
  refine ⟨s, hrun, (averages_iff (by decide) hrun).mpr ?_⟩
  rw [heq]
  exact ⟨by decide, by decide⟩

/--
A new manager divides by zero.
-/
theorem not_averages_new
    : ¬∀ maxSize es s, 1 ≤ maxSize → Run Step Run.Always (init maxSize) es s → Averages s := by
  intro hall
  exact (hall 3 [] _ (by decide) .nil).divides rfl

-- one heartbeat is answered after 5 ms and one is lost: the average is 1 ms
example
    : ((Run.execute step Run.Always (init 3) (beats ++ [.updateMessage])).bind
        fun s => s.manager.aveTime) = some 1 := by
  decide +kernel

end Observed
end HeartManager
end Fish
