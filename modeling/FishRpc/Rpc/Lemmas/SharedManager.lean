import FishRpc.Rpc.Impl.SharedManager
import FishRpc.Rpc.Lemmas.ProtocolManager
import Mathlib.Data.List.Induction
import Mathlib.Data.List.Nodup

/-!
This module contains what one call of `readMes` does to the pointers and their objects, and what
holds after every sequence of calls: the table holds unfinished messages only, and the pointers that
have been returned are READY, gone from the table and all different.
-/

namespace Fish
namespace SharedManager

open ProtocolManager (memory)

def current (m : SharedManager) (fd : Int) : ProtocolPtr := (m.undoProtols fd).getD m.next

theorem locate_fst (m : SharedManager) (fd : Int) (raw : HeadMsg)
    : (m.locate fd raw).1 = m.current fd := by
  unfold locate current
  cases m.undoProtols fd with
  | none => rfl
  | some p => rfl

theorem settle_new {m : SharedManager} {fd : Int} (protocol : ProtocolPtr) (flag : Bool)
    (hfound : m.undoProtols fd = none)
    : m.settle fd protocol flag false
        =
      { m with
        undoProtols := Function.update m.undoProtols fd (if flag then none else some protocol) } := by
  have hkeep : Function.update m.undoProtols fd none = m.undoProtols :=
    Function.update_eq_self_iff.mpr hfound.symm
  cases flag with
  | true => simp [settle, hkeep]
  | false => simp [settle, emplace, hfound]

theorem settle_old {m : SharedManager} {fd : Int} {protocol : ProtocolPtr} (flag : Bool)
    (hfound : m.undoProtols fd = some protocol)
    : m.settle fd protocol flag true
        =
      { m with
        undoProtols := Function.update m.undoProtols fd (if flag then none else some protocol) } := by
  have hkeep : Function.update m.undoProtols fd (some protocol) = m.undoProtols :=
    Function.update_eq_self_iff.mpr hfound.symm
  cases flag with
  | true => simp [settle, erase]
  | false => simp [settle, hkeep]

-- the table and the pointer returned when `create` has turned the message of `fd` into `object`
def after (m : SharedManager) (fd : Int) (object : Protocol) : SharedManager where
  undoProtols :=
    Function.update m.undoProtols fd
      (if object.handleState = .ready then none else some (m.current fd))
  objects := Function.update m.objects (m.current fd) object
  next := if (m.undoProtols fd).isSome then m.next else m.next + 1

def outcome (m : SharedManager) (fd : Int) (object : Protocol) : Option ProtocolPtr :=
  if object.handleState = .ready then some (m.current fd) else none

theorem readMes_eq (m : SharedManager) (fd : Int) (readBuf : Buffer) (raw : HeadMsg)
    (around : Int → Byte)
    : m.readMes fd readBuf raw around
        =
      let created := (m.values.current fd raw).create readBuf.unread (memory readBuf around)
      (m.outcome fd created.2, m.after fd created.2, readBuf.eraseData (max created.1 0).toNat) := by
  have hvalues : m.values.undoProtols fd = (m.undoProtols fd).map m.objects := rfl
  unfold readMes locate outcome after current ProtocolManager.current
  rw [hvalues]
  cases hfound : m.undoProtols fd with
  | none =>
    simp only [makeShared, mutate, Function.update_self, Function.update_idem, Option.isSome_none]
    rw [settle_new _ _ (by apply hfound)]
    simp only [decide_eq_true_eq]
    rfl
  | some p =>
    simp only [mutate, Function.update_self, Option.isSome_some]
    rw [settle_old _ (by apply hfound)]
    simp only [decide_eq_true_eq]
    rfl

/-! ### Refinement -/

structure WellFormed (m : SharedManager) : Prop where
  allocated : ∀ fd p, m.undoProtols fd = some p → p < m.next
  distinct : ∀ fd fd' p, m.undoProtols fd = some p → m.undoProtols fd' = some p → fd = fd'

theorem WellFormed.undoProtols_ne {m : SharedManager} (h : WellFormed m) {fd fd' : Int}
    (hfd : fd' ≠ fd) {p : ProtocolPtr} (hp : m.undoProtols fd' = some p) : p ≠ m.current fd := by
  unfold current
  cases hfound : m.undoProtols fd with
  | none =>
    apply Nat.ne_of_lt (h.allocated fd' p hp)
  | some q =>
    intro heq
    subst heq
    apply hfd
    apply h.distinct fd' fd p hp hfound

theorem undoProtols_after_self (m : SharedManager) (fd : Int) (object : Protocol)
    : (m.after fd object).undoProtols fd
        =
      if object.handleState = .ready then none else some (m.current fd) := by
  simp [after]

theorem undoProtols_after_of_ne (m : SharedManager) {fd fd' : Int} (object : Protocol)
    (hfd : fd' ≠ fd) : (m.after fd object).undoProtols fd' = m.undoProtols fd' := by
  simp [after, hfd]

theorem eq_current_of_after {m : SharedManager} {fd : Int} {object : Protocol} {p : ProtocolPtr}
    (hp : (m.after fd object).undoProtols fd = some p) : p = m.current fd := by
  rw [undoProtols_after_self] at hp
  split at hp
  . cases hp
  . exact (Option.some.inj hp).symm

theorem objects_after_current (m : SharedManager) (fd : Int) (object : Protocol)
    : (m.after fd object).objects (m.current fd) = object := by
  simp [after]

theorem objects_after_of_ne (m : SharedManager) {fd : Int} (object : Protocol) {p : ProtocolPtr}
    (hp : p ≠ m.current fd) : (m.after fd object).objects p = m.objects p := by
  simp [after, hp]

theorem next_le_after (m : SharedManager) (fd : Int) (object : Protocol)
    : m.next ≤ (m.after fd object).next := by
  unfold after
  simp only
  split
  . apply Nat.le_refl
  . apply Nat.le_succ

theorem WellFormed.current_lt_after {m : SharedManager} (h : WellFormed m) (fd : Int)
    (object : Protocol) : m.current fd < (m.after fd object).next := by
  unfold after current
  cases hfound : m.undoProtols fd with
  | none => simp
  | some p => simpa using h.allocated fd p hfound

theorem WellFormed.after {m : SharedManager} (h : WellFormed m) (fd : Int) (object : Protocol)
    : WellFormed (m.after fd object) := by
  constructor
  . intro fd' p hp
    by_cases hfd : fd' = fd
    . subst hfd
      rw [eq_current_of_after hp]
      apply h.current_lt_after
    . rw [undoProtols_after_of_ne _ _ hfd] at hp
      apply Nat.lt_of_lt_of_le (h.allocated fd' p hp) (m.next_le_after fd object)
  . intro fd₁ fd₂ p h₁ h₂
    by_cases hfd₁ : fd₁ = fd
    . by_cases hfd₂ : fd₂ = fd
      . rw [hfd₁, hfd₂]
      . subst hfd₁
        rw [undoProtols_after_of_ne _ _ hfd₂] at h₂
        cases h.undoProtols_ne hfd₂ h₂ (eq_current_of_after h₁)
    . rw [undoProtols_after_of_ne _ _ hfd₁] at h₁
      by_cases hfd₂ : fd₂ = fd
      . subst hfd₂
        cases h.undoProtols_ne hfd₁ h₁ (eq_current_of_after h₂)
      . rw [undoProtols_after_of_ne _ _ hfd₂] at h₂
        apply h.distinct fd₁ fd₂ p h₁ h₂

theorem WellFormed.values_after {m : SharedManager} (h : WellFormed m) (fd : Int)
    (object : Protocol)
    : (m.after fd object).values
        =
      ⟨Function.update m.values.undoProtols fd
        (if object.handleState = .ready then none else some object)⟩ := by
  simp only [values, ProtocolManager.mk.injEq]
  funext fd'
  by_cases hfd : fd' = fd
  . subst hfd
    rw [undoProtols_after_self]
    rw [Function.update_self]
    split
    . rfl
    . simp [objects_after_current]
  . rw [undoProtols_after_of_ne _ _ hfd]
    rw [Function.update_of_ne hfd]
    cases hp : m.undoProtols fd' with
    | none => rfl
    | some p => simp [objects_after_of_ne _ _ (h.undoProtols_ne hfd hp)]

theorem WellFormed.readMes {m : SharedManager} (h : WellFormed m) (fd : Int) (readBuf : Buffer)
    (raw : HeadMsg) (around : Int → Byte) : WellFormed (m.readMes fd readBuf raw around).2.1 := by
  rw [readMes_eq]
  apply h.after

/--
Seen through its pointers, the table behaves like a table of messages.
-/
theorem WellFormed.values_readMes {m : SharedManager} (h : WellFormed m) (fd : Int)
    (readBuf : Buffer) (raw : HeadMsg) (around : Int → Byte)
    : let read := m.readMes fd readBuf raw around
      (read.1.map read.2.1.objects, read.2.1.values, read.2.2)
        =
      m.values.readMes fd readBuf raw around := by
  intro read
  simp only [read]
  rw [readMes_eq]
  rw [ProtocolManager.readMes_eq]
  generalize (m.values.current fd raw).create readBuf.unread (memory readBuf around) = created
  simp only [h.values_after, outcome, decide_eq_true_eq, Prod.mk.injEq, and_true]
  split
  . simp [objects_after_current]
  . rfl

theorem WellFormed.init (raw : HeadMsg) : WellFormed (new raw) := by
  constructor
  . intro _ _ hp
    cases hp
  . intro _ _ _ hp
    cases hp

/-! ### Sequences of calls -/

def returned (log : List Served) : List ProtocolPtr :=
  log.filterMap Served.returned

def lastCall (log : List Served) (fd : Int) : Option Served :=
  (log.filter fun served => served.fd = fd).getLast?

-- the object that the last call of a socket worked on, unless it was returned
def unfinished (log : List Served) (fd : Int) : Option ProtocolPtr :=
  match lastCall log fd with
  | none => none
  | some served => if served.returned = none then some served.protocol else none

structure Settled (m : SharedManager) (log : List Served) : Prop where
  notReady : ∀ fd p, m.undoProtols fd = some p → (m.objects p).getState ≠ .ready
  returnedReady : ∀ p ∈ returned log, (m.objects p).getState = .ready
  returnedGone : ∀ p ∈ returned log, ∀ fd, m.undoProtols fd ≠ some p
  returnedOnce : (returned log).Nodup
  stored : ∀ fd, m.undoProtols fd = unfinished log fd
  own : ∀ served ∈ log, ∀ served' ∈ log, served.protocol = served'.protocol → served.fd = served'.fd

theorem lastCall_mem {log : List Served} {fd : Int} {served : Served}
    (h : lastCall log fd = some served) : served ∈ log ∧ served.fd = fd := by
  have hmem := List.mem_of_getLast? h
  simpa using hmem

theorem lastCall_concat_self (log : List Served) (served : Served)
    : lastCall (log ++ [served]) served.fd = some served := by
  simp [lastCall]

theorem lastCall_concat_of_ne (log : List Served) {served : Served} {fd : Int} (h : served.fd ≠ fd)
    : lastCall (log ++ [served]) fd = lastCall log fd := by
  simp [lastCall, h]

theorem unfinished_mem {log : List Served} {fd : Int} {p : ProtocolPtr}
    (h : unfinished log fd = some p) : ∃ served ∈ log, served.fd = fd ∧ served.protocol = p := by
  unfold unfinished at h
  cases hlast : lastCall log fd with
  | none => simp [hlast] at h
  | some served =>
    have hmem := lastCall_mem hlast
    simp only [hlast] at h
    split at h
    . exact ⟨served, hmem.1, hmem.2, Option.some.inj h⟩
    . cases h

theorem returned_concat (log : List Served) (served : Served)
    : returned (log ++ [served]) = returned log ++ served.returned.toList := by
  cases hret : served.returned with
  | none => simp [returned, hret]
  | some p => simp [returned, hret]

-- what `Settled` needs to be kept by the next call
structure Serving (m : SharedManager) (log : List Served) : Prop extends Settled m log where
  wellFormed : WellFormed m
  allocated : ∀ served ∈ log, served.protocol < m.next
  returnedOwn : ∀ served ∈ log, ∀ p, served.returned = some p → p = served.protocol

variable {m : SharedManager} {log : List Served}

theorem Serving.init (raw : HeadMsg) : Serving (new raw) [] := by
  constructor
  . constructor <;> simp [new, returned, unfinished, lastCall]
  . apply WellFormed.init
  . simp
  . simp

theorem Serving.returned_allocated (h : Serving m log) {p : ProtocolPtr} (hp : p ∈ returned log)
    : p < m.next := by
  rcases List.mem_filterMap.mp hp with ⟨served, hserved, hret⟩
  rw [h.returnedOwn served hserved p hret]
  apply h.allocated served hserved

theorem Serving.current_not_returned (h : Serving m log) (fd : Int)
    : m.current fd ∉ returned log := by
  intro hp
  unfold current at hp
  cases hfound : m.undoProtols fd with
  | none =>
    rw [hfound] at hp
    apply Nat.lt_irrefl _ (h.returned_allocated hp)
  | some p =>
    rw [hfound] at hp
    apply h.returnedGone p hp fd hfound

theorem Serving.fd_of_current (h : Serving m log) {fd : Int} {served : Served}
    (hserved : served ∈ log) (hcurrent : served.protocol = m.current fd) : served.fd = fd := by
  unfold current at hcurrent
  cases hfound : m.undoProtols fd with
  | none =>
    rw [hfound] at hcurrent
    have := h.allocated served hserved
    rw [hcurrent] at this
    cases Nat.lt_irrefl _ this
  | some p =>
    rw [hfound] at hcurrent
    rw [h.stored] at hfound
    rcases unfinished_mem hfound with ⟨last, hlast, hfd, hp⟩
    rw [← hfd]
    apply h.own served hserved last hlast
    rw [hp]
    apply hcurrent

theorem unfinished_concat (log : List Served) (served : Served) (fd : Int)
    : unfinished (log ++ [served]) fd
        =
      if fd = served.fd then
        if served.returned = none then some served.protocol else none
      else
        unfinished log fd := by
  unfold unfinished
  by_cases hfd : fd = served.fd
  . rw [hfd]
    rw [lastCall_concat_self]
    simp
  . rw [lastCall_concat_of_ne _ (Ne.symm hfd)]
    rw [if_neg hfd]

theorem mem_outcome {m : SharedManager} {fd : Int} {object : Protocol} {p : ProtocolPtr}
    (h : m.outcome fd object = some p) : object.handleState = .ready ∧ p = m.current fd := by
  unfold outcome at h
  split at h
  . exact ⟨by assumption, (Option.some.inj h).symm⟩
  . cases h

section

variable (fd : Int) (object : Protocol)

-- the entry that the call adds to the log
abbrev served (m : SharedManager) : Served := ⟨fd, m.current fd, m.outcome fd object⟩

theorem mem_returned_after {p : ProtocolPtr} (hp : p ∈ returned (log ++ [m.served fd object]))
    : p ∈ returned log ∨ (object.handleState = .ready ∧ p = m.current fd) := by
  rw [returned_concat] at hp
  rcases List.mem_append.mp hp with hp | hp
  . left
    apply hp
  . right
    apply mem_outcome
    simpa using hp

theorem Serving.notReady_after (h : Serving m log) (fd' : Int) (p : ProtocolPtr)
    (hp : (m.after fd object).undoProtols fd' = some p)
    : ((m.after fd object).objects p).getState ≠ .ready := by
  by_cases hfd : fd' = fd
  . subst hfd
    rw [eq_current_of_after hp]
    rw [objects_after_current]
    rw [undoProtols_after_self] at hp
    intro hready
    have hstate : object.handleState = .ready := hready
    rw [if_pos hstate] at hp
    cases hp
  . rw [undoProtols_after_of_ne _ _ hfd] at hp
    rw [objects_after_of_ne _ _ (h.wellFormed.undoProtols_ne hfd hp)]
    apply h.notReady fd' p hp

theorem Serving.returned_ne_current (h : Serving m log) {p : ProtocolPtr} (hp : p ∈ returned log)
    : p ≠ m.current fd := by
  intro heq
  apply h.current_not_returned fd
  rw [← heq]
  apply hp

theorem Serving.returnedReady_after (h : Serving m log) {p : ProtocolPtr}
    (hp : p ∈ returned (log ++ [m.served fd object]))
    : ((m.after fd object).objects p).getState = .ready := by
  rcases mem_returned_after fd object hp with hp | ⟨hready, rfl⟩
  . rw [objects_after_of_ne _ _ (h.returned_ne_current fd hp)]
    apply h.returnedReady p hp
  . rw [objects_after_current]
    apply hready

theorem Serving.returnedGone_after (h : Serving m log) {p : ProtocolPtr}
    (hp : p ∈ returned (log ++ [m.served fd object])) (fd' : Int)
    : (m.after fd object).undoProtols fd' ≠ some p := by
  intro hstored
  by_cases hfd : fd' = fd
  . subst hfd
    rcases mem_returned_after fd' object hp with hp | ⟨hready, rfl⟩
    . apply h.returned_ne_current fd' hp (eq_current_of_after hstored)
    . rw [undoProtols_after_self] at hstored
      rw [if_pos hready] at hstored
      cases hstored
  . rw [undoProtols_after_of_ne _ _ hfd] at hstored
    rcases mem_returned_after fd object hp with hp | ⟨_, rfl⟩
    . apply h.returnedGone p hp fd' hstored
    . apply h.wellFormed.undoProtols_ne hfd hstored rfl

theorem Serving.returnedOnce_after (h : Serving m log)
    : (returned (log ++ [m.served fd object])).Nodup := by
  rw [returned_concat]
  cases hout : m.outcome fd object with
  | none => simpa [hout] using h.returnedOnce
  | some p =>
    have hp : p ∉ returned log := by
      rw [(mem_outcome hout).2]
      apply h.current_not_returned
    have hconcat := h.returnedOnce.concat hp
    simpa [hout] using hconcat

theorem Serving.stored_after (h : Serving m log) (fd' : Int)
    : (m.after fd object).undoProtols fd' = unfinished (log ++ [m.served fd object]) fd' := by
  rw [unfinished_concat]
  by_cases hfd : fd' = fd
  . subst hfd
    rw [undoProtols_after_self]
    rw [if_pos rfl]
    simp only [outcome]
    by_cases hready : object.handleState = .ready
    . simp [hready]
    . simp [hready]
  . rw [undoProtols_after_of_ne _ _ hfd]
    rw [if_neg hfd]
    apply h.stored

theorem Serving.own_after (h : Serving m log) {c c' : Served}
    (hc : c ∈ log ++ [m.served fd object]) (hc' : c' ∈ log ++ [m.served fd object])
    (heq : c.protocol = c'.protocol) : c.fd = c'.fd := by
  rw [List.mem_append, List.mem_singleton] at hc hc'
  rcases hc with hc | rfl
  . rcases hc' with hc' | rfl
    . apply h.own c hc c' hc' heq
    . apply h.fd_of_current hc heq
  . rcases hc' with hc' | rfl
    . exact (h.fd_of_current hc' heq.symm).symm
    . rfl

theorem Serving.after (h : Serving m log)
    : Serving (m.after fd object) (log ++ [m.served fd object]) := by
  constructor
  . constructor
    . apply h.notReady_after
    . intro p hp
      apply h.returnedReady_after fd object hp
    . intro p hp
      apply h.returnedGone_after fd object hp
    . apply h.returnedOnce_after
    . apply h.stored_after
    . intro c hc c' hc'
      apply h.own_after fd object hc hc'
  . apply h.wellFormed.after
  . intro c hc
    rw [List.mem_append, List.mem_singleton] at hc
    rcases hc with hc | rfl
    . apply Nat.lt_of_lt_of_le (h.allocated c hc) (m.next_le_after fd object)
    . apply h.wellFormed.current_lt_after
  . intro c hc p hp
    rw [List.mem_append, List.mem_singleton] at hc
    rcases hc with hc | rfl
    . apply h.returnedOwn c hc p hp
    . exact (mem_outcome hp).2

end

theorem serving_serve (raw : HeadMsg) (calls : List ReadCall)
    : Serving (serve raw calls).1 (serve raw calls).2 := by
  unfold serve
  induction calls using List.reverseRecOn with
  | nil => apply Serving.init
  | append_singleton calls call ih =>
    rw [List.foldl_append]
    simp only [List.foldl_cons, List.foldl_nil, serveOne, locate_fst]
    rw [readMes_eq]
    apply ih.after

theorem readMes_settled (raw : HeadMsg) (calls : List ReadCall)
    : Settled (serve raw calls).1 (serve raw calls).2 := by
  apply (serving_serve raw calls).toSettled

end SharedManager
end Fish
