import FishRpc.Base.Impl.LogLoop
import FishRpc.Base.Lemmas.LogThread

/-!
This module contains the pool of buffers of the log thread: the current buffer and the buffers in the
three queues and in transit are always `bufNum` ones of `bufSize` bytes. From it follows that no
assertion fails and no buffer is refused, and that the steps of the loop are those of `LogThread`.
-/

namespace Fish

namespace LogThread

variable {α : Type}

def pool (t : LogThread α) : Nat :=
  1 + t.preBuf.length + t.readyBuf.length + t.bufToWrite.length + t.temp.toList.length

variable [LogChar α] {t : LogThread α}

-- an append moves a buffer from the spare ones to the ready ones, or none
theorem apendMessage_queues (t : LogThread α) (buf : List α)
    : (t.apendMessage buf).pool = t.pool ∧ (t.apendMessage buf).bufToWrite = t.bufToWrite ∧
      (t.apendMessage buf).temp = t.temp := by
  by_cases hfits : t.Fits buf
  . rw [apendMessage_of_fits hfits]
    exact ⟨rfl, rfl, rfl⟩
  . rcases List.eq_nil_or_concat t.preBuf with hspare | ⟨rest, spare, hspare⟩
    . rw [apendMessage_of_overflow hfits hspare]
      exact ⟨rfl, rfl, rfl⟩
    . rw [List.concat_eq_append] at hspare
      rw [apendMessage_of_spare hfits hspare]
      refine ⟨?_, rfl, rfl⟩
      simp only [pool, hspare, List.length_append, List.length_singleton]
      omega

theorem Fitted.overFlowMes_le (h : Fitted t)
    : (overFlowMes : List α).length ≤ t.currentBuf.length := by
  rw [length_overFlowMes, h.current]
  decide

-- a changed buffer has room for any message
theorem Fitted.changeBuf_current (h : Fitted t)
    : t.changeBuf.currentBuf.length = bufSize ∧
      t.changeBuf.currentBufIndex + maxMessage ≤ bufSize := by
  unfold changeBuf
  split
  . rename_i buf hlast
    have hroom : 0 + maxMessage ≤ bufSize := by decide
    exact ⟨h.spare buf (List.mem_of_getLast? hlast), hroom⟩
  . have hroom : sizeofPointer + maxMessage ≤ bufSize := by decide
    refine ⟨?_, hroom⟩
    rw [length_memcpy]
    . apply h.current
    . rw [Nat.zero_add]
      apply h.overFlowMes_le

end LogThread

namespace LogLoop

open LogThread (Fitted Fits bufSize bufNum maxMessage)

variable {α : Type} [LogChar α] {t t' : LogLoop α} {buf : List α}

/-! ### One append -/

-- the append overwrites the current buffer
def Reloads (t : LogThread α) (buf : List α) : Prop := ¬t.Fits buf ∧ t.preBuf = []

instance (t : LogThread α) (buf : List α) : Decidable (Reloads t buf) := by
  unfold Reloads Fits
  infer_instance

theorem changeBuf_eq (h : Fitted t.log)
    : t.changeBuf
        =
      .ok { t with
        log := t.log.changeBuf
        reloadMes := if t.log.preBuf = [] then true else t.reloadMes } := by
  unfold changeBuf
  split
  . rw [if_pos h.overFlowMes_le]
  . rfl

theorem apendMessage_eq (h : Fitted t.log) (hlen : buf.length ≤ maxMessage)
    : t.apendMessage buf
        =
      .ok { t with
        log := t.log.apendMessage buf
        reloadMes := if Reloads t.log buf then true else t.reloadMes } := by
  have hfree : ¬t.log.freeSize < 0 := by
    have hindex := h.index
    unfold LogThread.freeSize
    omega
  have hchanged := h.changeBuf_current
  unfold apendMessage LogThread.apendMessage
  rw [if_neg hfree]
  by_cases hfits : t.log.Fits buf
  . have hle := (t.log.freeSize_lt_iff buf).not.mpr (not_not_intro hfits)
    have hroom : t.log.currentBufIndex + buf.length ≤ t.log.currentBuf.length := by
      rw [h.current]
      apply hfits
    have hreloads : ¬Reloads t.log buf := fun hr => hr.1 hfits
    simp [hle, hroom, hreloads, pure, Except.pure, bind, Except.bind]
  . have hlt := (t.log.freeSize_lt_iff buf).mpr hfits
    have hroom : t.log.changeBuf.currentBufIndex + buf.length ≤ t.log.changeBuf.currentBuf.length := by
      omega
    have hreloads : Reloads t.log buf ↔ t.log.preBuf = [] := and_iff_right hfits
    simp [hlt, changeBuf_eq h, hroom, hreloads, pure, Except.pure, bind, Except.bind]

/-! ### The pool -/

-- what is left to do at the point where the log thread is
def AtPoint (t : LogLoop α) : Prop :=
  match t.point with
  | .waiting | .reporting => t.log.bufToWrite = [] ∧ t.log.temp = none
  | .swapped => t.log.temp = none
  | .flushing size i => i + t.log.bufToWrite.length + t.log.temp.toList.length = size

structure Conserved (t : LogLoop α) : Prop where
  fitted : Fitted t.log
  pool : t.log.pool = bufNum
  point : t.AtPoint

-- the step does not fail, keeps the pool and is a step of the buffers or leaves them unchanged
def Goes (t : LogLoop α) (r : Except LogFailure (LogLoop α)) : Prop :=
  ∃ t', r = .ok t' ∧ t'.Conserved ∧ (t'.log = t.log ∨ ∃ e, LogThread.Step t.log e t'.log)

theorem conserved_init : (init : LogLoop α).Conserved :=
  ⟨LogThread.fitted_init, rfl, rfl, rfl⟩

theorem Conserved.goes {e : LogThread.Event α} (h : t.Conserved)
    (hlog : LogThread.Step t.log e t'.log) (hpool : t'.log.pool = bufNum) (hpoint : t'.AtPoint)
    : t.Goes (.ok t') :=
  ⟨t', rfl, ⟨h.fitted.step hlog, hpool, hpoint⟩, Or.inr ⟨e, hlog⟩⟩

theorem Conserved.goes_of_log_eq (h : t.Conserved) (hlog : t'.log = t.log) (hpoint : t'.AtPoint)
    : t.Goes (.ok t') := by
  refine ⟨t', rfl, ⟨?_, ?_, hpoint⟩, Or.inl hlog⟩
  . rw [hlog]
    apply h.fitted
  . rw [hlog]
    apply h.pool

theorem Conserved.append (h : t.Conserved) (hlen : buf.length ≤ maxMessage)
    : t.Goes (t.apendMessage buf) := by
  rcases t.log.apendMessage_queues buf with ⟨hpool, hwrite, htemp⟩
  rw [apendMessage_eq h.fitted hlen]
  apply h.goes (LogThread.step_append_of_le hlen)
  . rw [hpool]
    apply h.pool
  . have hpoint := h.point
    unfold AtPoint at hpoint ⊢
    simp only
    rw [hwrite, htemp]
    apply hpoint

theorem Conserved.swap {r : Except LogFailure (LogLoop α)} (h : t.Conserved)
    (hstep : t.step .swap = some r) : t.Goes r := by
  have hpoint := h.point
  have hpool := h.pool
  simp only [LogLoop.step] at hstep
  split at hstep
  . rename_i hswap
    simp only [AtPoint, hswap.1] at hpoint
    rw [if_pos hpoint.1] at hstep
    cases hstep
    have hlog : LogThread.Step t.log .swap
        { t.log with bufToWrite := t.log.readyBuf, readyBuf := t.log.bufToWrite } := by
      simp [LogThread.Step, LogThread.step, hswap.2, hpoint]
    refine h.goes hlog ?_ hpoint.2
    unfold LogThread.pool at hpool ⊢
    simp only
    omega
  . cases hstep

theorem Conserved.flush {r : Except LogFailure (LogLoop α)} (h : t.Conserved)
    (hstep : t.step .flush = some r) : t.Goes r := by
  have hpoint := h.point
  have hpool := h.pool
  simp only [LogLoop.step] at hstep
  split at hstep
  . rename_i hswapped
    simp only [AtPoint, hswapped] at hpoint
    have hblocks : t.log.bufToWrite.length ≤ 5 := by
      unfold LogThread.pool bufNum at hpool
      omega
    rw [if_pos hblocks] at hstep
    cases hstep
    refine h.goes_of_log_eq rfl ?_
    simp [AtPoint, hpoint]
  . cases hstep

theorem Conserved.take {r : Except LogFailure (LogLoop α)} (h : t.Conserved)
    (hstep : t.step .take = some r) : t.Goes r := by
  have hpoint := h.point
  have hpool := h.pool
  simp only [LogLoop.step] at hstep
  split at hstep
  . rename_i size i hflushing htemp
    simp only [AtPoint, hflushing, htemp, Option.toList_none, List.length_nil] at hpoint
    split at hstep
    . rcases List.eq_nil_or_concat t.log.bufToWrite with hnil | ⟨rest, block, hblock⟩
      . rw [hnil, List.length_nil] at hpoint
        omega
      . rw [List.concat_eq_append] at hblock
        have hlast : t.log.bufToWrite.getLast? = some block := by simp [hblock]
        have hinit : t.log.bufToWrite.dropLast = rest := by simp [hblock]
        rw [hlast] at hstep
        cases hstep
        have hlog : LogThread.Step t.log .take
            { t.log with bufToWrite := t.log.bufToWrite.dropLast, temp := some (block, false) } := by
          simp [LogThread.Step, LogThread.step, htemp, hlast]
        apply h.goes hlog
        . unfold LogThread.pool at hpool ⊢
          simp only [hinit]
          simp only [hblock, htemp, List.length_append, List.length_singleton, Option.toList_none,
            List.length_nil] at hpool
          simp only [Option.toList_some, List.length_singleton]
          omega
        . rw [hblock, List.length_append, List.length_singleton] at hpoint
          simp only [AtPoint, hflushing, hinit, Option.toList_some, List.length_singleton]
          omega
    . cases hstep
  . cases hstep

theorem Conserved.write {r : Except LogFailure (LogLoop α)} (h : t.Conserved)
    (hstep : t.step .write = some r) : t.Goes r := by
  have hpoint := h.point
  have hpool := h.pool
  simp only [LogLoop.step] at hstep
  split at hstep
  . rename_i block htemp
    cases hstep
    have hlog : LogThread.Step t.log .write
        { t.log with file := t.log.file ++ block.contents, temp := some (block, true) } := by
      simp [LogThread.Step, LogThread.step, htemp]
    apply h.goes hlog
    . unfold LogThread.pool at hpool ⊢
      rw [htemp] at hpool
      apply hpool
    . unfold AtPoint at hpoint ⊢
      simpa [htemp] using hpoint
  . cases hstep

theorem Conserved.recycle {r : Except LogFailure (LogLoop α)} (h : t.Conserved)
    (hstep : t.step .recycle = some r) : t.Goes r := by
  have hpoint := h.point
  have hpool := h.pool
  simp only [LogLoop.step] at hstep
  split at hstep
  . rename_i size i block hflushing htemp
    unfold LogThread.pool at hpool
    simp only [htemp, Option.toList_some, List.length_singleton] at hpool
    simp only [AtPoint, hflushing, htemp, Option.toList_some, List.length_singleton] at hpoint
    have hnot : ¬t.log.preBuf.length = bufNum := by omega
    rw [if_neg hnot] at hstep
    cases hstep
    have hlog : LogThread.Step t.log .recycle { t.log.push block.buf with temp := none } := by
      simp [LogThread.Step, LogThread.step, htemp]
    have hpush : t.log.push block.buf = { t.log with preBuf := t.log.preBuf ++ [block.buf] } := by
      unfold LogThread.push
      rw [if_neg hnot]
    apply h.goes hlog
    . simp only [LogThread.pool, hpush, List.length_append, List.length_singleton,
        Option.toList_none, List.length_nil]
      omega
    . simp only [AtPoint, hpush, Option.toList_none, List.length_nil]
      omega
  . cases hstep

theorem Conserved.finish {printMes : Bool} {r : Except LogFailure (LogLoop α)} (h : t.Conserved)
    (hstep : t.step (.finish printMes) = some r) : t.Goes r := by
  have hpoint := h.point
  simp only [LogLoop.step] at hstep
  split at hstep
  . rename_i size i hflushing htemp
    simp only [AtPoint, hflushing, htemp, Option.toList_none, List.length_nil] at hpoint
    split at hstep
    . cases hstep
    . have hnil : t.log.bufToWrite = [] := by
        apply List.eq_nil_of_length_eq_zero
        omega
      split at hstep
      . cases hstep
        refine h.goes_of_log_eq rfl ?_
        exact ⟨hnil, htemp⟩
      . cases hstep
        refine h.goes_of_log_eq rfl ?_
        exact ⟨hnil, htemp⟩
  . cases hstep

theorem Conserved.report {r : Except LogFailure (LogLoop α)} (h : t.Conserved)
    (hstep : t.step (.report buf) = some r) : t.Goes r := by
  have hpoint := h.point
  simp only [LogLoop.step] at hstep
  split at hstep
  . rename_i hreport
    simp only [AtPoint, hreport.1] at hpoint
    have hwaiting : { t with point := .waiting }.Conserved := ⟨h.fitted, h.pool, hpoint⟩
    cases hstep
    apply hwaiting.append
    apply Nat.le_trans hreport.2 (by decide)
  . cases hstep

theorem Conserved.step {e : Event α} {r : Except LogFailure (LogLoop α)} (h : t.Conserved)
    (hstep : t.step e = some r) : t.Goes r := by
  cases e with
  | append buf =>
    simp only [LogLoop.step] at hstep
    split at hstep
    . rename_i hlen
      cases hstep
      apply h.append hlen
    . cases hstep
  | swap => apply h.swap hstep
  | flush => apply h.flush hstep
  | take => apply h.take hstep
  | write => apply h.write hstep
  | recycle => apply h.recycle hstep
  | finish printMes => apply h.finish hstep
  | report buf => apply h.report hstep

/-! ### Runs -/

variable {es : List (Event α)}

theorem Conserved.conserved_step {e : Event α} (h : t.Conserved) (hstep : Step t e t')
    : t'.Conserved := by
  rcases h.step hstep with ⟨t'', heq, hconserved, _⟩
  cases heq
  exact hconserved

theorem conserved_of_run (h : Run Step Run.Always init es t) : t.Conserved := by
  apply h.invariant conserved_init
  intro t e t' ht _ hstep
  apply ht.conserved_step hstep

/--
The buffers go through a run of the steps of `LogThread`.
-/
theorem run_log (h : Run Step Run.Always init es t)
    : ∃ es', Run LogThread.Step Run.Always LogThread.init es' t.log := by
  apply h.abstracts (f := LogLoop.log) conserved_init
  . intro t e t' ht _ hstep
    apply ht.conserved_step hstep
  . intro t e t' ht _ hstep
    rcases ht.step hstep with ⟨t'', heq, _, hlog⟩
    cases heq
    exact hlog

theorem step_append (h : Fitted t.log) (hlen : buf.length ≤ maxMessage)
    : Step t (.append buf)
        { t with
          log := t.log.apendMessage buf
          reloadMes := if Reloads t.log buf then true else t.reloadMes } := by
  unfold Step
  simp only [step]
  rw [if_pos hlen, apendMessage_eq h hlen]

/-! ### A full pool -/

def message : List Byte := List.replicate maxMessage 97

theorem length_message : message.length = maxMessage := List.length_replicate

-- the appends of a run of `LogThread`
theorem run_appends {log : LogThread α} (n : Nat) (h : Fitted t.log)
    (hrun : Run LogThread.Step LogThread.SpareLeft t.log (List.replicate n (.append buf)) log)
    : ∃ t', Run Step Run.Always t (List.replicate n (.append buf)) t' ∧ t'.log = log ∧
        t'.point = t.point ∧ Fitted t'.log := by
  induction n generalizing log with
  | zero =>
    rcases hrun.eq_of_nil with rfl
    exact ⟨t, .nil, rfl, rfl, h⟩
  | succ n ih =>
    rw [List.replicate_succ'] at hrun
    rcases hrun.of_concat with ⟨log', hinit, _, hlast⟩
    rcases LogThread.step_append hlast with ⟨hlen, rfl⟩
    rcases ih hinit with ⟨t', hrun', rfl, hpoint, hfitted⟩
    rw [List.replicate_succ']
    exact ⟨_, hrun'.snoc trivial (step_append hfitted hlen), rfl, hpoint, (hfitted.append hlen).1⟩

theorem fills
    : ∃ es, ∃ t : LogLoop Byte,
        Run Step Run.Always init es t ∧ t.point = .waiting ∧
          LogThread.Idle init.log t.log ∧ t.log.Room 10 0 := by
  rcases LogThread.room_init.fills length_message with ⟨log, hrun, hidle, hroom⟩
  rcases run_appends 50 conserved_init.fitted hrun with ⟨t, hrun', hlog, hpoint, _⟩
  rw [← hlog] at hidle hroom
  exact ⟨_, t, hrun', hpoint, hidle, hroom⟩

/-! ### Nothing fails -/

/--
In every state the buffers are `bufNum` ones of `bufSize` bytes, the index is within the current one,
and no step fails.
-/
theorem pool_of_run (h : Run Step Run.Always init es t)
    : 1 + t.log.preBuf.length + t.log.readyBuf.length + t.log.bufToWrite.length +
          t.log.temp.toList.length = bufNum ∧
      Fitted t.log ∧ ∀ e failure, t.step e ≠ some (.error failure) := by
  have hconserved := conserved_of_run h
  refine ⟨hconserved.pool, hconserved.fitted, ?_⟩
  intro e failure hstep
  rcases hconserved.step hstep with ⟨_, heq, _⟩
  cases heq

theorem pool_of_run_full
    : ∃ t : LogLoop Byte,
        t.point = .flushing 4 1 ∧
        1 + t.log.preBuf.length + t.log.readyBuf.length + t.log.bufToWrite.length +
            t.log.temp.toList.length = bufNum ∧
        Fitted t.log ∧ ∀ e failure, t.step e ≠ some (.error failure) := by
  rcases fills with ⟨es, t, hrun, hpoint, hidle, hroom⟩
  rcases hroom.full with ⟨hspare, hblocks⟩
  have hwrite : t.log.bufToWrite = [] := hidle.bufToWrite
  have htemp : t.log.temp = none := hidle.temp
  rcases List.eq_nil_or_concat t.log.readyBuf with hnil | ⟨rest, block, hready⟩
  . rw [hnil] at hblocks
    cases hblocks
  . rw [List.concat_eq_append] at hready
    rw [hready, List.length_append, List.length_singleton] at hblocks
    have hrest : rest.length + 1 = 4 := hblocks
    let swapped : LogLoop Byte :=
      { t with log := { t.log with bufToWrite := rest ++ [block], readyBuf := [] }, point := .swapped }
    let flushing : LogLoop Byte := { swapped with point := .flushing 4 0 }
    let taken : LogLoop Byte :=
      { flushing with
        log := { flushing.log with bufToWrite := rest, temp := some (block, false) } }
    let written : LogLoop Byte :=
      { taken with
        log := { taken.log with
          file := t.log.file ++ block.contents, temp := some (block, true) } }
    have hswap : Step t .swap swapped := by
      simp [Step, step, hpoint, hready, hwrite, swapped]
    have hflush : Step swapped .flush flushing := by
      simp [Step, step, swapped, flushing, hrest]
    have htake : Step flushing .take taken := by
      simp [Step, step, flushing, swapped, taken, htemp]
    have hwritten : Step taken .write written := rfl
    have hrecycle : Step written .recycle
        { written with
          log := { written.log.push block.buf with temp := none }, point := .flushing 4 1 } := by
      simp [Step, step, written, taken, flushing, swapped, hspare, LogThread.bufNum]
    have hbatch : Run Step Run.Always t [.swap, .flush, .take, .write, .recycle] _ :=
      .cons trivial hswap (.cons trivial hflush
        (.cons trivial htake (.cons trivial hwritten (.cons trivial hrecycle .nil))))
    exact ⟨_, rfl, pool_of_run (hrun.append hbatch)⟩

end LogLoop
end Fish
