import FishRpc.Rpc.Impl.HeartManager
import FishRpc.Lib.Run

/-!
This module contains the window of a `HeartManager`: the nodes in `list_` are the last ones that have
been inserted, and `sendHeart` gives up exactly if none of them has been answered. As nothing that can
be called from outside inserts a node, it always does.
-/

namespace Fish
namespace HeartManager

open NodeList

variable {s s' : HeartManager} {node : HeatTask} {now : BitVec 64} {maxSize : Nat}

/-! ### The last elements of a list -/

section

variable {α : Type} {n : Nat} {xs as : List α} {a x : α}

theorem rtake_of_le (h : xs.length ≤ n) : xs.rtake n = xs := by
  unfold List.rtake
  rw [Nat.sub_eq_zero_of_le h]
  rfl

theorem length_rtake (n : Nat) (xs : List α) : (xs.rtake n).length = min xs.length n := by
  unfold List.rtake
  rw [List.length_drop]
  omega

theorem rtake_concat_of_lt (h : xs.length < n) : (xs ++ [x]).rtake n = xs.rtake n ++ [x] := by
  rw [rtake_of_le (Nat.le_of_lt h)]
  apply rtake_of_le
  rw [List.length_append, List.length_singleton]
  omega

-- the first of them leaves when another one comes
theorem rtake_concat_of_cons (hle : n ≤ xs.length) (h : xs.rtake n = a :: as)
    : (xs ++ [x]).rtake n = as ++ [x] := by
  have hlen := congrArg List.length h
  rw [length_rtake, List.length_cons] at hlen
  obtain ⟨m, rfl⟩ : ∃ m, n = m + 1 := ⟨as.length, by omega⟩
  have hdrop : as = (xs.rtake (m + 1)).drop 1 := by
    rw [h]
    rfl
  rw [List.rtake_concat_succ, hdrop]
  unfold List.rtake
  rw [List.drop_drop]
  congr 2
  omega

end

/-! ### The window -/

def key (node : HeatTask) : BitVec 64 × BitVec 64 × BitVec 16 :=
  (node.sendTime, node.recvTime, node.id)

theorem key_assign (old node : HeatTask) : key (old.assign node) = key node := rfl

structure SameStatistics (s s' : HeartManager) : Prop where
  maxSize : s'.maxSize = s.maxSize
  totalTime : s'.totalTime = s.totalTime
  totalNum : s'.totalNum = s.totalNum
  lossNum : s'.lossNum = s.lossNum

inductive Placed (s s' : HeartManager) (node : HeatTask) : Prop where
  | pushed (room : s.list.values.length < s.maxSize)
    (values : s'.list.values = s.list.values ++ [node])
  | recycled (old : HeatTask) (rest : List HeatTask) (full : s.maxSize ≤ s.list.values.length)
    (before : s.list.values = old :: rest) (after : s'.list.values = rest ++ [old.assign node])

/--
Everything that an insertion does, and that it uses no iterator of an empty list.
-/
theorem insertNode_spec (hpos : 0 < s.maxSize) (node : HeatTask) (now : BitVec 64)
    : ∃ s', s.insertNode node now = some s' ∧ SameStatistics s s' ∧ Placed s s' node := by
  have hlist : (if s.list.size = 0 then { s with beginTime := now } else s).list = s.list := by
    split <;> rfl
  have hmax : (if s.list.size = 0 then { s with beginTime := now } else s).maxSize = s.maxSize := by
    split <;> rfl
  have hsame : SameStatistics s (if s.list.size = 0 then { s with beginTime := now } else s) := by
    split <;> exact ⟨rfl, rfl, rfl, rfl⟩
  unfold insertNode
  simp only
  generalize (if s.list.size = 0 then { s with beginTime := now } else s) = s₁ at hlist hmax hsame
  rcases hsame with ⟨_, htime, hnum, hloss⟩
  rw [hlist, hmax]
  by_cases hroom : s.list.size < s.maxSize
  . rw [if_pos hroom]
    refine ⟨_, rfl, ⟨rfl, htime, hnum, hloss⟩, .pushed ?_ ?_⟩
    . rw [length_values]
      apply hroom
    . apply values_pushBack
  . rw [if_neg hroom]
    have hlen := length_values s.list
    rcases hvalues : s.list.values with _ | ⟨old, rest⟩
    . rw [hvalues, List.length_nil] at hlen
      omega
    . rcases begin?_of_values_cons hvalues with ⟨iter, hbegin, hold, hrest⟩
      rw [hbegin]
      refine ⟨_, rfl, ⟨rfl, htime, hnum, hloss⟩, .recycled old rest ?_ hvalues ?_⟩
      . rw [hlen]
        exact Nat.not_lt.mp hroom
      . rw [← hold, ← hrest]
        apply values_modify_spliced

def Windowed (s : HeartManager) (inserted : List HeatTask) : Prop :=
  s.list.values.map key = (inserted.map key).rtake s.maxSize

theorem Windowed.length {inserted : List HeatTask} (h : Windowed s inserted)
    : s.list.values.length = min inserted.length s.maxSize := by
  have hlen := congrArg List.length h
  rw [List.length_map, length_rtake, List.length_map] at hlen
  exact hlen

theorem Windowed.insertNode {inserted : List HeatTask} (h : Windowed s inserted)
    (hmax : s'.maxSize = s.maxSize) (hplaced : Placed s s' node)
    : Windowed s' (inserted ++ [node]) := by
  have hlen := h.length
  unfold Windowed at h ⊢
  rw [List.map_append, List.map_singleton, hmax]
  cases hplaced with
  | pushed hroom hvalues =>
    rw [hvalues, List.map_append, h, List.map_singleton]
    rw [rtake_concat_of_lt]
    rw [List.length_map]
    omega
  | recycled old rest hfull hbefore hafter =>
    rw [hbefore, List.map_cons] at h
    rw [hafter, List.map_append, List.map_singleton, key_assign]
    rw [rtake_concat_of_cons _ h.symm]
    rw [List.length_map]
    omega

theorem windowed_init (maxSize : Nat) : Windowed (init maxSize) [] := by
  simp [Windowed, init, List.rtake]

def insertAll (s : HeartManager) (nodes : List (HeatTask × BitVec 64)) : Option HeartManager :=
  nodes.foldlM (fun s p => s.insertNode p.1 p.2) s

theorem insertAll_concat (nodes : List (HeatTask × BitVec 64)) (node : HeatTask) (now : BitVec 64)
    : s.insertAll (nodes ++ [(node, now)])
        =
      (s.insertAll nodes).bind fun s => s.insertNode node now := by
  simp [insertAll, List.foldlM_append]

/--
After any insertions the list holds the last nodes, as many as there is room for.
-/
theorem window_of_insertAll (hpos : 1 ≤ maxSize) (nodes : List (HeatTask × BitVec 64))
    : ∃ s,
        (init maxSize).insertAll nodes = some s ∧
        s.list.values.map key
          =
        (nodes.map fun p => key p.1).drop (nodes.length - min nodes.length maxSize) := by
  have hrun : ∃ s,
      (init maxSize).insertAll nodes = some s ∧ s.maxSize = maxSize ∧
      Windowed s (nodes.map Prod.fst) := by
    induction nodes using List.reverseRecOn with
    | nil => exact ⟨_, rfl, rfl, windowed_init maxSize⟩
    | append_singleton nodes p ih =>
      rcases ih with ⟨s, hs, hmax, hwindow⟩
      have hpos : 0 < s.maxSize := by omega
      rcases insertNode_spec hpos p.1 p.2 with ⟨s', hs', hsame, hplaced⟩
      refine ⟨s', ?_, hsame.maxSize.trans hmax, ?_⟩
      . rw [insertAll_concat, hs]
        exact hs'
      . rw [List.map_append]
        apply hwindow.insertNode hsame.maxSize hplaced
  rcases hrun with ⟨s, hs, hmax, hwindow⟩
  refine ⟨s, hs, ?_⟩
  unfold Windowed at hwindow
  rw [hwindow, hmax, List.map_map]
  unfold List.rtake
  rw [List.length_map]
  congr 1
  omega

theorem window_of_insertAll_two
    : ∃ s,
        (init 1).insertAll [({ sendTime := 1, id := 1 }, 0), ({ sendTime := 2, id := 2 }, 0)] = some s ∧
        s.list.values.map key = [(2, 0, 2)] :=
  window_of_insertAll (by decide)
    [({ sendTime := 1, id := 1 }, 0), ({ sendTime := 2, id := 2 }, 0)]

/-! ### Runs -/

theorem maxSize_count (s : HeartManager) (node : HeatTask) : (s.count node).maxSize = s.maxSize := by
  unfold count
  split
  . rfl
  . simp only
    split <;> rfl

theorem values_updateMessage (s : HeartManager)
    : s.updateMessage.list.values
        =
      s.list.values.map fun node => { node with statistics := true } := by
  unfold updateMessage
  apply values_forEach

theorem maxSize_updateMessage (s : HeartManager) : s.updateMessage.maxSize = s.maxSize := by
  have hfold (nodes : List HeatTask) (s : HeartManager)
      : (nodes.foldl count s).maxSize = s.maxSize := by
    induction nodes generalizing s with
    | nil => rfl
    | cons node nodes ih =>
      rw [List.foldl_cons, ih]
      apply maxSize_count
  unfold updateMessage
  simp only
  rw [forEach_fst]
  apply hfold

theorem Windowed.updateMessage {inserted : List HeatTask} (h : Windowed s inserted)
    : Windowed s.updateMessage inserted := by
  unfold Windowed at h ⊢
  rw [maxSize_updateMessage, ← h]
  rw [values_updateMessage, List.map_map]
  rfl

namespace Observed

variable {s s' : Observed} {es : List Event}

def Step (s : Observed) (e : Event) (s' : Observed) : Prop := s.step e = some s'

theorem step_insertNode (hpos : 0 < s.manager.maxSize) (h : Step s (.insertNode node now) s')
    : s' = { s with
        manager := s'.manager, inserted := s.inserted ++ [node], updated := false } ∧
      SameStatistics s.manager s'.manager ∧ Placed s.manager s'.manager node := by
  rcases insertNode_spec hpos node now with ⟨manager, hinsert, hsame, hplaced⟩
  unfold Step step at h
  simp only [hinsert, Option.map_some, Option.some.injEq] at h
  subst h
  exact ⟨rfl, hsame, hplaced⟩

theorem step_recvHeart {content : List Byte} (h : Step s (.recvHeart content) s')
    : s' = { s with received := s.received ++ [content] } := by
  unfold Step step recvHeart at h
  simp only [Option.map_eq_some_iff, Option.ite_none_right_eq_some] at h
  rcases h with ⟨manager, ⟨_, hmanager⟩, hs'⟩
  cases hmanager
  exact hs'.symm

structure Kept (maxSize : Nat) (s : Observed) : Prop where
  maxSize : s.manager.maxSize = maxSize
  windowed : Windowed s.manager s.inserted

theorem kept_init (maxSize : Nat) : Kept maxSize (init maxSize) :=
  ⟨rfl, windowed_init maxSize⟩

theorem Kept.pos (hs : Kept maxSize s) (hpos : 1 ≤ maxSize) : 0 < s.manager.maxSize := by
  rw [hs.maxSize]
  apply hpos

theorem Kept.step {e : Event} (hpos : 1 ≤ maxSize) (hs : Kept maxSize s) (h : Step s e s')
    : Kept maxSize s' := by
  cases e with
  | insertNode node now =>
    rcases step_insertNode (hs.pos hpos) h with ⟨heq, hsame, hplaced⟩
    rw [heq]
    exact ⟨hsame.maxSize.trans hs.maxSize, hs.windowed.insertNode hsame.maxSize hplaced⟩
  | updateMessage =>
    cases h
    exact ⟨(maxSize_updateMessage _).trans hs.maxSize, hs.windowed.updateMessage⟩
  | sendHeart =>
    cases h
    exact ⟨hs.maxSize, hs.windowed⟩
  | recvHeart content =>
    rw [step_recvHeart h]
    exact ⟨hs.maxSize, hs.windowed⟩

theorem kept_of_run (hpos : 1 ≤ maxSize) (h : Run Step Run.Always (init maxSize) es s)
    : Kept maxSize s := by
  apply h.invariant (kept_init maxSize)
  intro s e s' hs _ hstep
  exact hs.step hpos hstep

theorem mem_keys_iff (P : BitVec 64 × BitVec 64 × BitVec 16 → Prop) (nodes : List HeatTask)
    : (∃ node ∈ nodes, P (key node)) ↔ ∃ k ∈ nodes.map key, P k := by
  simp

/--
`sendHeart` gives up exactly if none of the last nodes has been answered, so also before the first
one.
-/
theorem sendHeart_eq_none_iff (hpos : 1 ≤ maxSize) (h : Run Step Run.Always (init maxSize) es s)
    : s.manager.sendHeart = none ↔ ¬∃ node ∈ s.inserted.rtake maxSize, node.Answered := by
  have hkept := kept_of_run hpos h
  have hwindow : s.manager.list.values.map key = (s.inserted.rtake maxSize).map key := by
    rw [hkept.windowed, hkept.maxSize]
    unfold List.rtake
    rw [List.length_map, List.map_drop]
  have halive : s.manager.alive = true ↔ ∃ node ∈ s.manager.list.values, node.Answered := by
    simp [alive]
  unfold sendHeart
  simp only [Bool.not_eq_true', ite_eq_left_iff, reduceCtorEq, imp_false, not_not]
  rw [← Bool.not_eq_true, halive]
  have hiff := mem_keys_iff (fun k => k.1.slt k.2.1) s.manager.list.values
  rw [hwindow, ← mem_keys_iff (fun k => k.1.slt k.2.1)] at hiff
  exact not_congr hiff

/-! ### The calls from outside -/

def CallStep (s : Observed) (e : Event) (s' : Observed) : Prop :=
  Step s e s' ∧ (e = .sendHeart ∨ ∃ content, e = .recvHeart content)

-- `Answers n content` is that the received content answers the heartbeat `n`
def Unreachable (Answers : Nat → List Byte → Prop) (s : Observed) : Prop :=
  s.manager.maxSize ≤ s.sent ∧
    ∀ n, s.sent - s.manager.maxSize ≤ n → n < s.sent → ∀ content ∈ s.received, ¬Answers n content

def Justified (Answers : Nat → List Byte → Prop) (s : Observed) : Event → Prop
  | .sendHeart => s.manager.sendHeart = none → s.Unreachable Answers
  | _ => True

def OnlyReceives (_ : Observed) (e : Event) : Prop := e ≠ .sendHeart

structure Unsent (maxSize : Nat) (s : Observed) : Prop where
  kept : Kept maxSize s
  inserted : s.inserted = []
  sent : s.sent = 0

theorem unsent_init (maxSize : Nat) : Unsent maxSize (init maxSize) :=
  ⟨kept_init maxSize, rfl, rfl⟩

theorem Unsent.sendHeart {maxSize : Nat} (hs : Unsent maxSize s) : s.manager.sendHeart = none := by
  have hkeys := hs.kept.windowed
  have hvalues : s.manager.list.values = [] := by
    unfold Windowed at hkeys
    rw [hs.inserted] at hkeys
    simpa [List.rtake] using hkeys
  simp [HeartManager.sendHeart, alive, hvalues]

theorem Unsent.step {maxSize : Nat} {e : Event} (hpos : 1 ≤ maxSize) (hs : Unsent maxSize s)
    (h : CallStep s e s') : Unsent maxSize s' := by
  rcases h with ⟨hstep, rfl | ⟨content, rfl⟩⟩
  . have hkept := hs.kept.step hpos hstep
    cases hstep
    refine ⟨hkept, hs.inserted, ?_⟩
    simp [hs.sendHeart, hs.sent]
  . have hkept := hs.kept.step hpos hstep
    rw [step_recvHeart hstep] at hkept ⊢
    exact ⟨hkept, hs.inserted, hs.sent⟩

theorem Unsent.justified_iff {maxSize : Nat} {e : Event} {Answers : Nat → List Byte → Prop}
    (hpos : 1 ≤ maxSize) (hs : Unsent maxSize s) (h : CallStep s e s')
    : Justified Answers s e ↔ OnlyReceives s e := by
  rcases h with ⟨_, rfl | ⟨content, rfl⟩⟩
  . refine iff_of_false ?_ fun h => h rfl
    intro hjustified
    have hsize := (hjustified hs.sendHeart).1
    rw [hs.kept.maxSize, hs.sent] at hsize
    omega
  . exact iff_of_true trivial nofun

/--
However the received contents are read, the refusals are justified in exactly the runs without any.
-/
theorem refusals_iff (hpos : 1 ≤ maxSize) (Answers : Nat → List Byte → Prop)
    : Run CallStep (Justified Answers) (init maxSize) es s
        ↔
      Run CallStep OnlyReceives (init maxSize) es s := by
  apply Run.meets_congr (unsent_init maxSize)
  . exact fun s e s' hs _ hstep => hs.step hpos hstep
  . exact fun s e s' hs hstep => hs.justified_iff hpos hstep

theorem refusals_iff_reply
    : ∃ s,
        Run CallStep OnlyReceives (init 3) [.recvHeart [1, 0, 2, 0]] s ∧
        Run CallStep (Justified fun _ _ => True) (init 3) [.recvHeart [1, 0, 2, 0]] s := by
  have hstep : CallStep (init 3) (.recvHeart [1, 0, 2, 0]) _ := ⟨rfl, Or.inr ⟨_, rfl⟩⟩
  have hrun : Run CallStep OnlyReceives (init 3) [.recvHeart [1, 0, 2, 0]] _ :=
    .snoc .nil nofun hstep
  exact ⟨_, hrun, (refusals_iff (by decide) fun _ _ => True).mpr hrun⟩

/--
A new manager does not send its first heartbeat.
-/
theorem not_justified_first : ¬∃ Answers, Justified Answers (init 3) .sendHeart := by
  rintro ⟨Answers, hjustified⟩
  have hsize := (hjustified rfl).1
  cases hsize

end Observed
end HeartManager
end Fish
