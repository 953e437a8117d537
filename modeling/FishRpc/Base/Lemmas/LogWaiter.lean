import FishRpc.Base.Impl.LogWaiter
import FishRpc.Base.Lemmas.LogOverflow

/-!
This module contains the wake-ups of the log thread: while it sleeps, a ready buffer is followed by a
notification. Where nobody else appends, its own steps get every block that has been handed over into
the file.
-/

namespace Fish
namespace LogWaiter

open LogThread (Fitted maxMessage)

variable {T α : Type} [DecidableEq T] [LogChar α] {s s' : LogWaiter T α} {t t' : LogLoop α}

/-! ### No lost wake-up -/

structure Woken (s : LogWaiter T α) : Prop where
  conserved : s.loop.Conserved
  waiting : s.sleeping = true → s.loop.point = .waiting
  owed : s.sleeping = true → s.loop.log.readyBuf ≠ [] → ∃ t, s.notifying t = true

omit [DecidableEq T] in
theorem woken_init : (init : LogWaiter T α).Woken where
  conserved := LogLoop.conserved_init
  waiting := nofun
  owed := nofun

theorem step_append {u : T} {buf : List α} (h : Step s (.append u buf) s')
    : ∃ loop, LogLoop.Step s.loop (.append buf) loop ∧ s.notifying u = false ∧
        s' = { s with
          loop
          notifying := Function.update s.notifying u
            (decide (s.loop.log.freeSize < buf.length)) } := by
  simp only [Step, step] at h
  split at h
  . cases h
  . rename_i hquiet
    split at h
    . rename_i loop hstep
      cases h
      exact ⟨loop, hstep, by simpa using hquiet, rfl⟩
    . cases h

theorem step_work {e : LogLoop.Event α} (h : Step s (.work e) s')
    : s.sleeping = false ∧ ∃ loop, LogLoop.Step s.loop e loop ∧ s' = { s with loop } := by
  simp only [Step, step] at h
  split at h
  . cases h
  . rename_i hawake
    split at h
    . rename_i loop hstep
      cases h
      refine ⟨?_, loop, hstep, rfl⟩
      simp only [not_or, Bool.not_eq_true] at hawake
      exact hawake.1
    . cases h

-- an append that leaves the current buffer in place makes no buffer ready
theorem append_point (h : t.Conserved) {buf : List α} (hstep : LogLoop.Step t (.append buf) t')
    : t'.point = t.point ∧ (t.log.Fits buf → t'.log.readyBuf = t.log.readyBuf) := by
  have hlen : buf.length ≤ maxMessage := by
    by_contra hlong
    simp [LogLoop.Step, LogLoop.step, hlong] at hstep
  have heq := LogLoop.step_append h.fitted hlen
  rw [LogLoop.Step, show t.step (.append buf) = some (.ok t') from hstep] at heq
  cases heq
  refine ⟨rfl, ?_⟩
  intro hfits
  rw [LogThread.apendMessage_of_fits hfits]

theorem Woken.step {e : Event T α} (h : Woken s) (hstep : Step s e s') : Woken s' := by
  cases e with
  | append u buf =>
    rcases step_append hstep with ⟨loop, hloop, hquiet, rfl⟩
    rcases append_point h.conserved hloop with ⟨hpoint, hready⟩
    refine ⟨h.conserved.conserved_step hloop, ?_, ?_⟩
    . intro hsleeping
      exact hpoint.trans (h.waiting hsleeping)
    . intro hsleeping hne
      by_cases hfits : s.loop.log.Fits buf
      . rw [hready hfits] at hne
        rcases h.owed hsleeping hne with ⟨v, hv⟩
        refine ⟨v, ?_⟩
        have hvu : v ≠ u := by
          rintro rfl
          rw [hquiet] at hv
          cases hv
        simpa [hvu] using hv
      . exact ⟨u, by simpa using (s.loop.log.freeSize_lt_iff buf).mpr hfits⟩
  | notify u =>
    simp only [Step, LogWaiter.step] at hstep
    split at hstep
    . cases hstep
      exact ⟨h.conserved, nofun, nofun⟩
    . cases hstep
  | wait =>
    simp only [Step, LogWaiter.step] at hstep
    split at hstep
    . rename_i hwait
      cases hstep
      exact ⟨h.conserved, fun _ => hwait.1, fun _ hne => absurd hwait.2.1 hne⟩
    . cases hstep
  | wake =>
    simp only [Step, LogWaiter.step] at hstep
    split at hstep
    . cases hstep
      exact ⟨h.conserved, nofun, nofun⟩
    . cases hstep
  | work e =>
    rcases step_work hstep with ⟨hawake, loop, hloop, rfl⟩
    refine ⟨h.conserved.conserved_step hloop, ?_, ?_⟩
    . intro hsleeping
      rw [show s.sleeping = true from hsleeping] at hawake
      cases hawake
    . intro hsleeping
      rw [show s.sleeping = true from hsleeping] at hawake
      cases hawake

theorem woken_of_run {es : List (Event T α)} (h : Run Step Run.Always init es s) : Woken s := by
  apply h.invariant woken_init
  exact fun _ _ _ hs _ hstep => hs.step hstep

/-! ### The log thread by itself -/

-- the configuration decides whether it reports, and `report` is the text
def Own (printMes : Bool) (report : List α) : LogLoop.Event α → Prop
  | .append _ => False
  | .finish p => p = printMes
  | .report buf => buf = report
  | .swap | .flush | .take | .write | .recycle => True

abbrev Alone (printMes : Bool) (report : List α) (t : LogLoop α) (es : List (LogLoop.Event α))
    (t' : LogLoop α) : Prop :=
  Run LogLoop.Step (fun _ e => Own printMes report e) t es t'

theorem own_step {printMes : Bool} {report : List α} {e : LogLoop.Event α}
    (hstep : LogLoop.Step t e t') (hown : Own printMes report e) : Alone printMes report t [e] t' :=
  .snoc .nil hown hstep

def contents (blocks : List (LogBlock α)) : List (List α) := blocks.map LogBlock.contents

-- the blocks that have been handed over and are not in the file, in the order of the flush
def swappedBlocks (log : LogThread α) : List (LogBlock α) := log.inTransit ++ log.bufToWrite.reverse

def unwritten (log : LogThread α) : List (LogBlock α) := swappedBlocks log ++ log.readyBuf.reverse

-- the rounds of `flushToFile`
structure Flushing (t : LogLoop α) (size i : Nat) (temp : Option (LogBlock α × Bool))
    (blocks ready : List (LogBlock α)) (file : List α) : Prop where
  conserved : t.Conserved
  point : t.point = .flushing size i
  temp : t.log.temp = temp
  blocks : t.log.bufToWrite = blocks
  ready : t.log.readyBuf = ready
  file : t.log.file = file

variable (printMes : Bool) {report : List α} {size i : Nat} {block : LogBlock α}
  {blocks ready : List (LogBlock α)} {file : List α}

theorem Flushing.take (h : Flushing t size i none (blocks ++ [block]) ready file)
    : ∃ t', LogLoop.Step t .take t' ∧ Flushing t' size i (some (block, false)) blocks ready file := by
  have hatPoint := h.conserved.point
  simp only [LogLoop.AtPoint, h.point, h.blocks, h.temp, List.length_append, List.length_singleton,
    Option.toList_none, List.length_nil] at hatPoint
  have hlt : i < size := by omega
  have hstep : LogLoop.Step t .take
      { t with log := { t.log with bufToWrite := blocks, temp := some (block, false) } } := by
    simp [LogLoop.Step, LogLoop.step, h.point, h.temp, h.blocks, hlt]
  exact ⟨_, hstep, h.conserved.conserved_step hstep, h.point, rfl, rfl, h.ready, h.file⟩

theorem Flushing.write (h : Flushing t size i (some (block, false)) blocks ready file)
    : ∃ t', LogLoop.Step t .write t' ∧
        Flushing t' size i (some (block, true)) blocks ready (file ++ block.contents) := by
  have hstep : LogLoop.Step t .write
      { t with log := { t.log with
        file := t.log.file ++ block.contents, temp := some (block, true) } } := by
    simp [LogLoop.Step, LogLoop.step, h.temp]
  refine ⟨_, hstep, h.conserved.conserved_step hstep, h.point, rfl, h.blocks, h.ready, ?_⟩
  simp only [h.file]

theorem Flushing.recycle (h : Flushing t size i (some (block, true)) blocks ready file)
    : ∃ t', LogLoop.Step t .recycle t' ∧ Flushing t' size (i + 1) none blocks ready file := by
  have hpool := h.conserved.pool
  simp only [LogThread.pool, h.temp, Option.toList_some, List.length_singleton] at hpool
  have hroom : ¬t.log.preBuf.length = LogThread.bufNum := by omega
  have hstep : LogLoop.Step t .recycle
      { t with
        log := { t.log.push block.buf with temp := none }, point := .flushing size (i + 1) } := by
    simp [LogLoop.Step, LogLoop.step, h.point, h.temp, hroom]
  refine ⟨_, hstep, h.conserved.conserved_step hstep, rfl, rfl, ?_, ?_, ?_⟩
  . simp [LogThread.push, hroom, h.blocks]
  . simp [LogThread.push, hroom, h.ready]
  . simp [LogThread.push, hroom, h.file]

-- the block that is being written and those that have been swapped
theorem Flushing.finishes (report : List α)
    (h : Flushing t size i (some (block, false)) blocks ready file)
    : ∃ es t', Alone printMes report t es t' ∧
        Flushing t' size (i + 1) none blocks ready (file ++ block.contents) := by
  rcases h.write with ⟨t₁, hwrite, h₁⟩
  rcases h₁.recycle with ⟨t₂, hrecycle, h₂⟩
  exact ⟨_, t₂, .append (own_step hwrite trivial) (own_step hrecycle trivial), h₂⟩

theorem Flushing.all (report : List α) (h : Flushing t size i none blocks ready file)
    : ∃ es t' i', Alone printMes report t es t' ∧
        Flushing t' size i' none [] ready (file ++ (contents blocks.reverse).flatten) := by
  induction blocks using List.reverseRecOn generalizing t i file with
  | nil => exact ⟨[], t, i, .nil, by simpa [contents] using h⟩
  | append_singleton blocks block ih =>
    rcases h.take with ⟨t₁, htake, h₁⟩
    rcases h₁.finishes printMes report with ⟨es₂, t₂, hrun₂, h₂⟩
    rcases ih h₂ with ⟨es₃, t₃, i₃, hrun₃, h₃⟩
    refine ⟨_, t₃, i₃, .append (.append (own_step htake trivial) hrun₂) hrun₃, ?_⟩
    simpa [contents] using h₃

theorem append_keeps (log : LogThread α) (buf : List α)
    : (log.apendMessage buf).file = log.file ∧
        log.readyBuf.Sublist (log.apendMessage buf).readyBuf := by
  by_cases hfits : log.Fits buf
  . rw [LogThread.apendMessage_of_fits hfits]
    exact ⟨rfl, List.Sublist.refl _⟩
  . rcases List.eq_nil_or_concat log.preBuf with hspare | ⟨rest, spare, hspare⟩
    . rw [LogThread.apendMessage_of_overflow hfits hspare]
      exact ⟨rfl, List.Sublist.refl _⟩
    . rw [List.concat_eq_append] at hspare
      rw [LogThread.apendMessage_of_spare hfits hspare]
      exact ⟨rfl, List.sublist_append_left _ _⟩

-- the log thread is in front of its critical section
structure Ready (t : LogLoop α) (ready : List (LogBlock α)) (file : List α) : Prop where
  conserved : t.Conserved
  point : t.point = .waiting
  ready : ready.Sublist t.log.readyBuf
  file : t.log.file = file

-- `writeLogMes` writes nothing and loses nothing
theorem reports {buf : List α} (h : t.Conserved) (hpoint : t.point = .reporting)
    (hlen : buf.length ≤ LogLoop.maxReport)
    : ∃ t', LogLoop.Step t (.report buf) t' ∧ t'.point = .waiting ∧ t'.log.file = t.log.file ∧
        t.log.readyBuf.Sublist t'.log.readyBuf ∧
        (unwritten t.log).Sublist (unwritten t'.log) := by
  have hle : buf.length ≤ maxMessage := Nat.le_trans hlen (by decide)
  have hfitted : Fitted ({ t with point := .waiting } : LogLoop α).log := h.fitted
  have hstep : t.step (.report buf) = some ({ t with point := .waiting }.apendMessage buf) := by
    simp [LogLoop.step, hpoint, hlen]
  rcases append_keeps t.log buf with ⟨hfile, hready⟩
  rcases t.log.apendMessage_queues buf with ⟨_, hwrite, htemp⟩
  rw [LogLoop.apendMessage_eq hfitted hle] at hstep
  refine ⟨_, hstep, rfl, hfile, hready, ?_⟩
  unfold unwritten swappedBlocks LogThread.inTransit
  simp only [hwrite, htemp]
  exact hready.reverse.append_left _

theorem swaps (h : t.Conserved) (hpoint : t.point = .waiting) (hne : t.log.readyBuf ≠ [])
    : LogLoop.Step t .swap
        { t with
          log := { t.log with bufToWrite := t.log.readyBuf, readyBuf := t.log.bufToWrite }
          point := .swapped } := by
  have hatPoint := h.point
  simp only [LogLoop.AtPoint, hpoint] at hatPoint
  simp [LogLoop.Step, LogLoop.step, hpoint, hne, hatPoint]

omit [LogChar α] in
theorem unwritten_waiting (h : t.Conserved) (hpoint : t.point = .waiting)
    : unwritten t.log = t.log.readyBuf.reverse := by
  have hatPoint := h.point
  simp only [LogLoop.AtPoint, hpoint] at hatPoint
  simp [unwritten, swappedBlocks, LogThread.inTransit, hatPoint]

-- a swap neither
omit [LogChar α] in
theorem unwritten_swap (h : t.Conserved) (hpoint : t.point = .waiting)
    : (unwritten t.log).Sublist
        (unwritten
          { t.log with bufToWrite := t.log.readyBuf, readyBuf := t.log.bufToWrite }) := by
  have hatPoint := h.point
  simp only [LogLoop.AtPoint, hpoint] at hatPoint
  simp [unwritten, swappedBlocks, LogThread.inTransit, hatPoint]

theorem report_ready (hreport : report.length ≤ LogLoop.maxReport) (h : t.Conserved)
    (hpoint : t.point = .reporting)
    : ∃ es t', Alone printMes report t es t' ∧ Ready t' t.log.readyBuf t.log.file := by
  rcases reports h hpoint hreport with ⟨t', hstep, hwaiting, hfile, hready, _⟩
  exact ⟨_, t', own_step hstep rfl, h.conserved_step hstep, hwaiting, hready, hfile⟩

theorem Flushing.done (hreport : report.length ≤ LogLoop.maxReport)
    (h : Flushing t size i none [] ready file)
    : ∃ es t', Alone printMes report t es t' ∧ Ready t' ready file := by
  have hatPoint := h.conserved.point
  simp only [LogLoop.AtPoint, h.point, h.blocks, h.temp, Option.toList_none, List.length_nil]
    at hatPoint
  have hend : ¬i < size := by omega
  cases printMes with
  | false =>
    have hstep : LogLoop.Step t (.finish false) { t with point := .waiting } := by
      simp [LogLoop.Step, LogLoop.step, h.point, h.temp, hend]
    refine ⟨_, _, own_step hstep rfl, h.conserved.conserved_step hstep, rfl, ?_, h.file⟩
    simp only [h.ready]
    exact List.Sublist.refl _
  | true =>
    have hstep : LogLoop.Step t (.finish true)
        { t with reloadMes := false, point := .reporting } := by
      simp [LogLoop.Step, LogLoop.step, h.point, h.temp, hend]
    rcases report_ready true hreport (h.conserved.conserved_step hstep) rfl with
      ⟨es, t', hrun, hready⟩
    simp only [h.ready, h.file] at hready
    exact ⟨_, t', .append (own_step hstep rfl) hrun, hready⟩

theorem swapped_flushing (h : t.Conserved) (hpoint : t.point = .swapped)
    : ∃ t', LogLoop.Step t .flush t' ∧
        Flushing t' t.log.bufToWrite.length 0 none t.log.bufToWrite t.log.readyBuf t.log.file := by
  have hatPoint := h.point
  have hpool := h.pool
  simp only [LogLoop.AtPoint, hpoint] at hatPoint
  have hblocks : t.log.bufToWrite.length ≤ 5 := by
    unfold LogThread.pool LogThread.bufNum at hpool
    omega
  have hstep : LogLoop.Step t .flush
      { t with point := .flushing t.log.bufToWrite.length 0 } := by
    simp [LogLoop.Step, LogLoop.step, hpoint, hblocks]
  exact ⟨_, hstep, h.conserved_step hstep, rfl, hatPoint, rfl, rfl, rfl⟩

-- the log thread ends the round that it is in
theorem ready_of_conserved (hreport : report.length ≤ LogLoop.maxReport) (h : t.Conserved)
    : ∃ es t', Alone printMes report t es t' ∧
        Ready t' t.log.readyBuf (t.log.file ++ (contents (swappedBlocks t.log)).flatten) := by
  have hatPoint := h.point
  cases hpoint : t.point with
  | waiting =>
    simp only [LogLoop.AtPoint, hpoint] at hatPoint
    refine ⟨[], t, .nil, h, hpoint, List.Sublist.refl _, ?_⟩
    simp [swappedBlocks, LogThread.inTransit, contents, hatPoint]
  | swapped =>
    simp only [LogLoop.AtPoint, hpoint] at hatPoint
    rcases swapped_flushing h hpoint with ⟨t₁, hflush, h₁⟩
    rcases h₁.all printMes report with ⟨es₂, t₂, i₂, hrun₂, h₂⟩
    rcases h₂.done printMes hreport with ⟨es₃, t₃, hrun₃, h₃⟩
    refine ⟨_, t₃, .append (.append (own_step hflush trivial) hrun₂) hrun₃, ?_⟩
    simpa [swappedBlocks, LogThread.inTransit, hatPoint] using h₃
  | flushing size i =>
    have hflushing : ∃ es t' i', Alone printMes report t es t' ∧
        Flushing t' size i' none t.log.bufToWrite t.log.readyBuf
          (t.log.file ++ (contents t.log.inTransit).flatten) := by
      cases htemp : t.log.temp with
      | none =>
        refine ⟨[], t, i, .nil, h, hpoint, htemp, rfl, rfl, ?_⟩
        simp [LogThread.inTransit, htemp, contents]
      | some temp =>
        rcases temp with ⟨block, written⟩
        cases written with
        | false =>
          have hstart : Flushing t size i (some (block, false)) t.log.bufToWrite t.log.readyBuf
              t.log.file := ⟨h, hpoint, htemp, rfl, rfl, rfl⟩
          rcases hstart.finishes printMes report with ⟨es, t', hrun, h'⟩
          refine ⟨es, t', i + 1, hrun, ?_⟩
          simpa [LogThread.inTransit, htemp, contents] using h'
        | true =>
          have hstart : Flushing t size i (some (block, true)) t.log.bufToWrite t.log.readyBuf
              t.log.file := ⟨h, hpoint, htemp, rfl, rfl, rfl⟩
          rcases hstart.recycle with ⟨t', hstep, h'⟩
          refine ⟨_, t', i + 1, own_step hstep trivial, ?_⟩
          simpa [LogThread.inTransit, htemp, contents] using h'
    rcases hflushing with ⟨es₁, t₁, i₁, hrun₁, h₁⟩
    rcases h₁.all printMes report with ⟨es₂, t₂, i₂, hrun₂, h₂⟩
    rcases h₂.done printMes hreport with ⟨es₃, t₃, hrun₃, h₃⟩
    refine ⟨_, t₃, .append (.append hrun₁ hrun₂) hrun₃, ?_⟩
    simpa [swappedBlocks, contents] using h₃
  | reporting =>
    simp only [LogLoop.AtPoint, hpoint] at hatPoint
    rcases report_ready printMes hreport h hpoint with ⟨es, t', hrun, h'⟩
    refine ⟨es, t', hrun, ?_⟩
    simpa [swappedBlocks, LogThread.inTransit, contents, hatPoint] using h'

-- it swaps and writes what is ready
theorem Ready.drained (report : List α) (h : Ready t ready file)
    : ∃ es t' parts, Alone printMes report t es t' ∧
        t'.log.file = file ++ (contents parts).flatten ∧ ready.reverse.Sublist parts := by
  by_cases hnil : t.log.readyBuf = []
  . refine ⟨[], t, [], .nil, by simpa [contents] using h.file, ?_⟩
    have hready := h.ready
    rw [hnil, List.sublist_nil] at hready
    rw [hready]
    exact List.Sublist.refl _
  . have hstep := swaps h.conserved h.point hnil
    rcases swapped_flushing (h.conserved.conserved_step hstep) rfl with ⟨t₁, hflush, h₁⟩
    rcases h₁.all printMes report with ⟨es₂, t₂, i₂, hrun₂, h₂⟩
    refine ⟨_, t₂, t.log.readyBuf.reverse,
      .append (.append (own_step hstep trivial) (own_step hflush trivial)) hrun₂, ?_, ?_⟩
    . simp only [h₂.file, h.file]
    . exact h.ready.reverse

theorem drained_of_conserved (hreport : report.length ≤ LogLoop.maxReport)
    (h : t.Conserved)
    : ∃ es t' parts, Alone printMes report t es t' ∧
        t'.log.file = t.log.file ++ (contents parts).flatten ∧
          (unwritten t.log).Sublist parts := by
  rcases ready_of_conserved printMes hreport h with ⟨es₁, t₁, hrun₁, h₁⟩
  rcases h₁.drained printMes report with
    ⟨es₂, t₂, parts, hrun₂, hfile, hsub⟩
  refine ⟨_, t₂, swappedBlocks t.log ++ parts, .append hrun₁ hrun₂, ?_, ?_⟩
  . rw [hfile]
    simp [contents]
  . exact hsub.append_left _

end LogWaiter
end Fish
