import FishRpc.Base.Impl.LogPipeline
import FishRpc.Base.Lemmas.LogFile
import FishRpc.Base.Lemmas.LogStream
import FishRpc.Lib.Interleaving

/-!
This module contains the lines that the threads log. The messages that `apendMessage` gets are whole
lines of one thread, and each block and each file holds whole messages, so no line is torn apart or
mixed with those of other threads, in memory or on the disk.
-/

namespace Fish
namespace LogStream

open LogBuffer (lowLevel crlf writeEnd_spec)

variable {s : LogStream}

-- the buffer goes to the callback as a whole or not at all
theorem end_cases (h : s.Safe)
    : ∃ s',
        s.end_ = some s' ∧ s'.buf.index < lowLevel ∧
        ((s.buf.index + 2 < lowLevel ∧ s'.buf.index = s.buf.index + 2 ∧ s'.handed = s.handed ∧
            s'.buf.content = s.buf.content ++ crlf) ∨
          (lowLevel ≤ s.buf.index + 2 ∧ s'.handed = s.handed ++ [s.buf.content ++ crlf] ∧
            s'.buf.content = [])) := by
  rcases writeEnd_spec h with ⟨b', hwrite, hindex, hcontent⟩
  have hbound : b'.index ≤ LogBuffer.bufferSize := by
    have hhead : LogBuffer.headLevel = 10237 := rfl
    have hbuf : LogBuffer.bufferSize = 10240 := rfl
    unfold Safe at h
    omega
  unfold end_
  rw [hwrite, Option.bind_eq_bind, Option.bind_some]
  simp only [decide_eq_true_eq]
  split
  . rename_i hlow
    rw [hindex] at hlow
    refine ⟨_, rfl, Nat.le_of_ble_eq_true rfl, Or.inr ⟨hlow, ?_, ?_⟩⟩
    . have hdata : b'.data.take b'.writeIndex.toInt.toNat = b'.content := by
        rw [LogBuffer.toInt_writeIndex hbound]
        rfl
      simp only [LogBuffer.updateMes, hdata]
      rw [hcontent]
    . simp [LogBuffer.refresh, LogBuffer.content, LogBuffer.index]
  . rename_i hlow
    have hlt : b'.index < lowLevel := Nat.lt_of_not_le hlow
    refine ⟨_, rfl, hlt, Or.inl ⟨?_, hindex, rfl, hcontent⟩⟩
    rw [← hindex]
    exact hlt

end LogStream

namespace LogPipeline

open LogStream (Piece lines)
open LogBuffer (lowLevel headLevel crlf)
open Layout (Laid)

variable {T : Type} [DecidableEq T] {s s' : LogPipeline T} {es : List (Event T)} {e : Event T}

/-! ### Messages -/

-- what `apendMessage` is called with: lines of a thread, or what the log thread says about itself
inductive Message (T : Type) where
  | lines (t : T) (ls : List (List Byte))
  | report (buf : List Byte)

-- a line ends with "\r\n"
def ended (ls : List (List Byte)) : List Byte := ls.flatMap fun line => line ++ crlf

def Message.bytes : Message T → List Byte
  | lines _ ls => ended ls
  | report buf => buf

def Message.linesOf (t : T) : Message T → List (List Byte)
  | lines t' ls => if t' = t then ls else []
  | report _ => []

-- the lines of one thread in the order in which they are appended
def linesOf (t : T) (ms : List (Message T)) : List (List Byte) := ms.flatMap (Message.linesOf t)

theorem ended_concat (ls : List (List Byte)) (line : List Byte)
    : ended (ls ++ [line]) = ended ls ++ line ++ crlf := by
  simp [ended]

theorem linesOf_concat (t : T) (ms : List (Message T)) (m : Message T)
    : linesOf t (ms ++ [m]) = linesOf t ms ++ m.linesOf t := by
  simp [linesOf]

-- what a thread does with its stream
def Event.ofStream : Event T → Option (T × LogStream.Event)
  | insert t piece => some (t, .insert piece)
  | end_ t => some (t, .end_)
  | _ => none

def own (t : T) (es : List (Event T)) : List LogStream.Event :=
  Interleaving.own t (es.filterMap Event.ofStream)

theorem own_concat_self {t : T} {a : LogStream.Event} (h : e.ofStream = some (t, a))
    : own t (es ++ [e]) = own t es ++ [a] := by
  unfold own
  simp only [List.filterMap_append, List.filterMap_cons, h, List.filterMap_nil]
  apply Interleaving.own_concat_self

theorem own_concat_of_ne {t t' : T} {a : LogStream.Event} (h : e.ofStream = some (t', a))
    (hne : t' ≠ t) : own t (es ++ [e]) = own t es := by
  unfold own
  simp only [List.filterMap_append, List.filterMap_cons, h, List.filterMap_nil]
  apply Interleaving.own_concat_of_ne hne

theorem own_concat_of_none (t : T) (h : e.ofStream = none) : own t (es ++ [e]) = own t es := by
  unfold own
  simp [h]

-- every line of every thread is short enough
def Short (es : List (Event T)) : Prop := ∀ t, (lines (own t es)).Short

theorem Short.init (h : Short (es ++ [e])) : Short es := by
  intro t
  have ht := h t
  cases he : e.ofStream with
  | none =>
    rw [own_concat_of_none t he] at ht
    exact ht
  | some a =>
    rcases a with ⟨t', a⟩
    by_cases hne : t' = t
    . subst hne
      rw [own_concat_self he, LogStream.lines_concat] at ht
      apply ht.of_add
    . rw [own_concat_of_ne he hne] at ht
      exact ht

/-! ### A thread -/

-- the lines that the thread has ended are in messages or in its buffer, which ends with the open one
structure Buffered (stream : LogStream) (appended : List (List Byte)) (ls : LogStream.Lines) : Prop
    where
  content : ∃ pending, appended ++ pending = ls.ended ∧
    stream.buf.content = ended pending ++ ls.current
  index : stream.buf.index < lowLevel + ls.current.length

theorem Buffered.safe {stream : LogStream} {appended : List (List Byte)} {ls : LogStream.Lines}
    (h : Buffered stream appended ls) (hshort : ls.Short) : stream.Safe := by
  have hindex := h.index
  have hlevels : headLevel = lowLevel + 253 := rfl
  have hcurrent : ls.current.length ≤ headLevel - lowLevel + 1 :=
    hshort _ (List.mem_append_right _ List.mem_cons_self)
  unfold LogStream.Safe
  omega

theorem Buffered.insert {stream stream' : LogStream} {appended : List (List Byte)}
    {ls : LogStream.Lines} {piece : Piece} (h : Buffered stream appended ls)
    (hshort : (ls.add (.insert piece)).Short) (hinsert : stream.insert piece = some stream')
    : Buffered stream' appended (ls.add (.insert piece)) := by
  have hcurrent : (ls.current ++ piece.bytes).length ≤ headLevel - lowLevel + 1 :=
    hshort _ (List.mem_append_right _ List.mem_cons_self)
  have hindex := h.index
  have hlevels : headLevel = lowLevel + 253 := rfl
  rw [List.length_append] at hcurrent
  have hpiece : piece.bytes.length < 2 ^ 31 := by omega
  rcases LogStream.insert_spec (h.safe hshort.of_add) hpiece with
    ⟨stream'', hinsert', _, hwritten⟩
  rw [hinsert] at hinsert'
  cases hinsert'
  cases hwritten with
  | kept hfits hindex' hcontent' =>
    rcases h.content with ⟨pending, hended, hcontent⟩
    refine ⟨⟨pending, hended, ?_⟩, ?_⟩
    . rw [hcontent', hcontent]
      apply List.append_assoc
    . rw [hindex']
      simp only [LogStream.Lines.add, List.length_append]
      omega
  | dropped hfull _ => omega

theorem Buffered.end_ {stream stream' : LogStream} {appended : List (List Byte)}
    {ls : LogStream.Lines} (h : Buffered stream appended ls) (hsafe : stream.Safe)
    (hend : stream.end_ = some stream')
    : (stream'.handed = stream.handed ∧ Buffered stream' appended (ls.add .end_)) ∨
      ∃ pending, stream'.handed = stream.handed ++ [ended pending] ∧
        Buffered stream' (appended ++ pending) (ls.add .end_) := by
  rcases h.content with ⟨pending, hended, hcontent⟩
  rcases LogStream.end_cases hsafe with ⟨stream'', hend', hindex, hcases⟩
  rw [hend] at hend'
  cases hend'
  have hline : stream.buf.content ++ crlf = ended (pending ++ [ls.current]) := by
    rw [hcontent, ended_concat]
  rw [hline] at hcases
  have hlines : appended ++ (pending ++ [ls.current]) = (ls.add .end_).ended := by
    rw [← List.append_assoc, hended]
    rfl
  rcases hcases with ⟨_, _, hhanded, hcontent'⟩ | ⟨_, hhanded, hcontent'⟩
  . refine Or.inl ⟨hhanded, ⟨pending ++ [ls.current], hlines, ?_⟩, hindex⟩
    rw [hcontent']
    exact (List.append_nil _).symm
  . refine Or.inr ⟨pending ++ [ls.current], hhanded, ⟨[], ?_, hcontent'⟩, hindex⟩
    rw [List.append_nil]
    exact hlines

/-! ### Places -/

-- the blocks in memory but the current one
def blocks (t : LogThread Byte) : List (List Byte) :=
  (t.bufToWrite ++ t.inTransit ++ t.readyBuf).map LogBlock.contents

-- the current file, those that are full, the blocks in memory and the current one
def places (log : LogThread Byte) (logFile : LogFile) : List (List Byte) :=
  logFile.file.content :: ((logFile.closed.map OpenFile.content ++ blocks log) ++ [log.filled])

-- an append that needs a new block finds a spare one, and every `fwrite` makes progress
def Meets (s : LogPipeline T) : Event T → Prop
  | .end_ t => ∀ buf ∈ s.given t, s.log.SpareLeft (.append buf)
  | .report buf => s.log.SpareLeft (.append buf)
  | .write fwrite tm _ => LogFile.Progress { message := [], fwrite, tm }
  | _ => True

variable {log log' : LogThread Byte} {logFile logFile' : LogFile} {messages : List (List Byte)}

theorem laid_append {buf : List Byte} (hfitted : log.Fitted)
    (hspare : log.SpareLeft (.append buf)) (hlen : buf.length ≤ LogThread.maxMessage)
    (h : Laid (places log logFile) messages)
    : Laid (places (log.apendMessage buf) logFile) (messages ++ [buf]) := by
  unfold places at h ⊢
  cases (hfitted.append hlen).2 with
  | fits _ hstored hfilled =>
    have hblocks : blocks (log.apendMessage buf) = blocks log := (List.cons.inj hstored).2
    rw [hblocks, hfilled]
    rw [← List.cons_append] at h ⊢
    apply h.extend
  | spare _ _ hstored hfilled =>
    have hblocks : blocks (log.apendMessage buf) = blocks log ++ [log.filled] :=
      (List.cons.inj hstored).2
    rw [hblocks, hfilled]
    rw [← List.append_assoc]
    apply h.add
  | overflow hfits hnone => exact absurd hnone (hspare ((log.freeSize_lt_iff buf).mpr hfits))

theorem places_congr (h : log'.places = log.places) : places log' logFile = places log logFile := by
  have hblocks : blocks log' ++ [log'.filled] = blocks log ++ [log.filled] := (List.cons.inj h).2
  unfold places
  rw [List.append_assoc, hblocks, List.append_assoc]

theorem laid_write {block : LogBlock Byte} {c : LogFile.Call} (hprogress : LogFile.Progress c)
    (hmessage : c.message = block.contents) (htemp : log.temp = some (block, false))
    (hlog : log.step .write = some log') (hfile : LogFile.Wrote logFile c logFile')
    (h : Laid (places log logFile) messages) : Laid (places log' logFile') messages := by
  rcases LogThread.step_write hlog with ⟨block', htemp', rfl⟩
  rw [htemp] at htemp'
  cases htemp'
  have hclosed : (logFile.appended c).closed = logFile.closed := rfl
  have happended : Laid
      ((logFile.appended c).file.content ::
        ((logFile.closed.map OpenFile.content ++ log.bufToWrite.map LogBlock.contents) ++
          (log.readyBuf.map LogBlock.contents ++ [log.filled])))
      messages := by
    apply Layout.Laid.merge
    rw [hmessage]
    simpa [places, blocks, LogThread.inTransit, htemp] using h
  have hspec := (LogFile.writeMessage_spec hprogress logFile).1 logFile' hfile
  split at hspec
  . rcases LogFile.openFile_eq hspec with ⟨_, _, hcontent, hfiles, _⟩
    rw [List.append_assoc] at happended
    have hclose := happended.close
    simpa [places, blocks, LogThread.inTransit, LogThread.filled, hcontent, hfiles, hclosed]
      using hclose
  . cases hspec
    simpa [places, blocks, LogThread.inTransit, LogThread.filled, hclosed] using happended

/-! ### Steps -/

-- `ms` are the messages in the order in which they are appended
structure Whole (s : LogPipeline T) (es : List (Event T)) (ms : List (Message T)) : Prop where
  fitted : s.log.Fitted
  laid : Laid (places s.log s.logFile) (ms.map Message.bytes)
  buffered : ∀ t, Buffered (s.streams t) (linesOf t ms) (lines (own t es))

variable {ms : List (Message T)}

theorem whole_init {tm : Tm} (hnew : LogFile.new tm = some logFile)
    : Whole (init logFile : LogPipeline T) [] [] where
  fitted := LogThread.fitted_init
  laid := by
    rcases LogFile.openFile_eq hnew with ⟨_, _, hcontent, hclosed, _⟩
    refine ⟨[[], []], ?_, List.Perm.refl _⟩
    simp only [places, init, hcontent, hclosed]
    rfl
  buffered t := by
    refine ⟨⟨[], rfl, rfl⟩, ?_⟩
    apply Nat.le_of_ble_eq_true rfl

-- the streams are left alone
theorem Whole.logged (h : Whole s es ms) {log : LogThread Byte} {logFile : LogFile}
    (he : e.ofStream = none) (hfitted : log.Fitted)
    (hlaid : Laid (places log logFile) (ms.map Message.bytes))
    : Whole { s with log, logFile } (es ++ [e]) ms where
  fitted := hfitted
  laid := hlaid
  buffered t := by
    rw [own_concat_of_none t he]
    apply h.buffered t

-- a step of the log thread that only moves blocks
theorem Whole.moved (h : Whole s es ms) {log : LogThread Byte} {a : LogThread.Event Byte}
    (he : e.ofStream = none) (hstep : s.log.step a = some log)
    (hplaces : log.places = s.log.places) : Whole { s with log } (es ++ [e]) ms := by
  apply h.logged he (h.fitted.step hstep)
  rw [places_congr hplaces]
  apply h.laid

theorem Whole.report {buf : List Byte} (h : Whole s es ms) (hmeets : s.Meets (.report buf))
    (hstep : Step s (.report buf) s') : Whole s' (es ++ [.report buf]) (ms ++ [.report buf]) := by
  simp only [Step, step, Option.ite_none_right_eq_some] at hstep
  rcases Option.map_eq_some_iff.mp hstep.2 with ⟨log, hlog, rfl⟩
  rcases LogThread.step_append hlog with ⟨hlen, rfl⟩
  refine ⟨h.fitted.step hlog, ?_, ?_⟩
  . rw [List.map_append]
    apply laid_append h.fitted hmeets hlen h.laid
  . intro t
    rw [own_concat_of_none t rfl, linesOf_concat, Message.linesOf, List.append_nil]
    apply h.buffered t

theorem Whole.write {fwrite : Nat → Nat → Nat × Bool} {tm : Tm} {iterations : Nat}
    (h : Whole s es ms) (hmeets : s.Meets (.write fwrite tm iterations))
    (hstep : Step s (.write fwrite tm iterations) s')
    : Whole s' (es ++ [.write fwrite tm iterations]) ms := by
  simp only [Step, step] at hstep
  split at hstep
  . rename_i block htemp
    rcases Option.bind_eq_some_iff.mp hstep with ⟨log, hlog, hstep⟩
    rcases Option.bind_eq_some_iff.mp hstep with ⟨logFile, hfile, hstep⟩
    cases hstep
    apply h.logged rfl (h.fitted.step hlog)
    have hprogress : LogFile.Progress { message := block.contents, fwrite, tm } := hmeets
    apply laid_write hprogress rfl htemp hlog ⟨iterations, hfile⟩ h.laid
  . cases hstep

-- the other threads and what they have handed over are left alone
theorem Whole.others {t : T} {a : LogStream.Event} {stream : LogStream} {ms' : List (Message T)}
    (h : Whole s es ms) (he : e.ofStream = some (t, a))
    (hother : ∀ t', t' ≠ t → linesOf t' ms' = linesOf t' ms)
    (hself : Buffered stream (linesOf t ms') ((lines (own t es)).add a)) (t' : T)
    : Buffered (Function.update s.streams t stream t') (linesOf t' ms')
        (lines (own t' (es ++ [e]))) := by
  by_cases heq : t' = t
  . subst heq
    rw [Function.update_self, own_concat_self he, LogStream.lines_concat]
    exact hself
  . rw [Function.update_of_ne heq, own_concat_of_ne he (Ne.symm heq), hother t' heq]
    apply h.buffered t'

theorem Whole.insert {t : T} {piece : Piece} (h : Whole s es ms)
    (hshort : Short (es ++ [.insert t piece])) (hstep : Step s (.insert t piece) s')
    : Whole s' (es ++ [.insert t piece]) ms := by
  rcases Option.bind_eq_some_iff.mp hstep with ⟨stream, hinsert, hs'⟩
  cases hs'
  have hline : ((lines (own t es)).add (.insert piece)).Short := by
    have ht := hshort t
    rw [own_concat_self rfl, LogStream.lines_concat] at ht
    exact ht
  refine ⟨h.fitted, h.laid, ?_⟩
  apply h.others rfl (fun _ _ => rfl)
  apply (h.buffered t).insert hline hinsert

theorem Whole.end_ {t : T} (h : Whole s es ms) (hshort : Short es) (hmeets : s.Meets (.end_ t))
    (hstep : Step s (.end_ t) s') : ∃ ms', Whole s' (es ++ [.end_ t]) ms' := by
  rcases Option.bind_eq_some_iff.mp hstep with ⟨stream, hend, hstep⟩
  rcases Option.bind_eq_some_iff.mp hstep with ⟨log, hlog, hs'⟩
  cases hs'
  have hsafe := (h.buffered t).safe (hshort t)
  have hgiven : s.given t = stream.handed.drop (s.streams t).handed.length := by
    unfold given
    rw [hend]
  rcases (h.buffered t).end_ hsafe hend with ⟨hhanded, hself⟩ | ⟨pending, hhanded, hself⟩
  . rw [hgiven, hhanded, List.drop_length] at hlog
    cases hlog
    exact ⟨ms, h.fitted, h.laid, h.others rfl (fun _ _ => rfl) hself⟩
  . rw [hhanded, List.drop_left] at hgiven
    have happend : s.log.step (.append (ended pending)) = some log := by
      rw [hgiven] at hlog
      simpa using hlog
    have hspare : s.log.SpareLeft (.append (ended pending)) := by
      apply hmeets
      rw [hgiven]
      apply List.mem_singleton_self
    rcases LogThread.step_append happend with ⟨hlen, rfl⟩
    refine ⟨ms ++ [.lines t pending], h.fitted.step happend, ?_, ?_⟩
    . rw [List.map_append]
      apply laid_append h.fitted hspare hlen h.laid
    . apply h.others rfl
      . intro t' hne
        rw [linesOf_concat, Message.linesOf, if_neg (Ne.symm hne), List.append_nil]
      . rw [linesOf_concat, Message.linesOf, if_pos rfl]
        exact hself

theorem Whole.step (h : Whole s es ms) (hshort : Short (es ++ [e])) (hmeets : s.Meets e)
    (hstep : Step s e s') : ∃ ms', Whole s' (es ++ [e]) ms' := by
  cases e with
  | insert t piece => exact ⟨ms, h.insert hshort hstep⟩
  | end_ t => exact h.end_ hshort.init hmeets hstep
  | report buf => exact ⟨_, h.report hmeets hstep⟩
  | swap =>
    rcases Option.map_eq_some_iff.mp hstep with ⟨log, hlog, rfl⟩
    exact ⟨ms, h.moved rfl hlog (LogThread.places_swap hlog)⟩
  | take =>
    rcases Option.map_eq_some_iff.mp hstep with ⟨log, hlog, rfl⟩
    exact ⟨ms, h.moved rfl hlog (LogThread.places_take hlog)⟩
  | write fwrite tm iterations => exact ⟨ms, h.write hmeets hstep⟩
  | recycle =>
    rcases Option.map_eq_some_iff.mp hstep with ⟨log, hlog, rfl⟩
    exact ⟨ms, h.moved rfl hlog (LogThread.places_recycle hlog)⟩

/--
Each file and each block in memory is a sequence of messages, each message is in one of them once, and
the lines of a thread are those in its messages and behind them those still in its buffer, all whole
and in order.
-/
theorem lines_of_run {tm : Tm} {logFile : LogFile} (hnew : LogFile.new tm = some logFile)
    (hshort : Short es) (h : Run Step Meets (init logFile) es s)
    : ∃ ms : List (Message T),
        Laid (places s.log s.logFile) (ms.map Message.bytes) ∧
        ∀ t, ∃ pending,
          linesOf t ms ++ pending = (lines (own t es)).ended ∧
          (s.streams t).buf.content = ended pending ++ (lines (own t es)).current := by
  have hwhole : ∃ ms, Whole s es ms := by
    induction h with
    | nil => exact ⟨[], whole_init hnew⟩
    | snoc _ hmeets hstep ih =>
      rcases ih hshort.init with ⟨ms, hms⟩
      apply hms.step hshort hmeets hstep
  rcases hwhole with ⟨ms, hms⟩
  exact ⟨ms, hms.laid, fun t => (hms.buffered t).content⟩

/-! ### A line in a file -/

def line : List Byte := List.replicate 254 97

theorem length_line : line.length = 254 := List.length_replicate

-- a run in which the only thread has ended `n` lines
def Typed (logFile : LogFile) (n : Nat) (s : LogPipeline Unit) : Prop :=
  ∃ es, Run Step Meets (init logFile) es s ∧ lines (own () es) = ⟨List.replicate n line, []⟩

theorem short_of_lines {n : Nat} {es : List (Event Unit)}
    (h : lines (own () es) = ⟨List.replicate n line, []⟩) : Short es := by
  have hlevels : headLevel - lowLevel + 1 = 254 := rfl
  intro t text htext
  rw [show own t es = own () es from rfl] at htext
  rw [h] at htext
  rcases List.mem_append.mp htext with hended | hopen
  . rw [List.eq_of_mem_replicate hended]
    rw [length_line]
    exact Nat.le_of_eq hlevels.symm
  . rw [List.mem_singleton.mp hopen]
    exact Nat.zero_le _

-- an event of the log thread
theorem Typed.step {n : Nat} {s s' : LogPipeline Unit} {e : Event Unit} (h : Typed logFile n s)
    (he : e.ofStream = none) (hmeets : s.Meets e) (hstep : Step s e s') : Typed logFile n s' := by
  rcases h with ⟨es, hrun, hlines⟩
  refine ⟨_, hrun.snoc hmeets hstep, ?_⟩
  rw [own_concat_of_none () he]
  exact hlines

theorem Typed.next {n : Nat} {s s₁ s₂ : LogPipeline Unit} (h : Typed logFile n s)
    (hinsert : Step s (.insert () (.view line)) s₁) (hmeets : s₁.Meets (.end_ ()))
    (hend : Step s₁ (.end_ ()) s₂) : Typed logFile (n + 1) s₂ := by
  rcases h with ⟨es, hrun, hlines⟩
  refine ⟨_, (hrun.snoc (by trivial) hinsert).snoc hmeets hend, ?_⟩
  rw [own_concat_self rfl]
  rw [own_concat_self rfl]
  rw [LogStream.lines_concat]
  rw [LogStream.lines_concat]
  rw [hlines]
  rw [List.replicate_succ']
  rfl

-- they are still in the buffer
structure Typing (logFile : LogFile) (n : Nat) (s : LogPipeline Unit) : Prop where
  typed : Typed logFile n s
  log : s.log = .init
  file : s.logFile = logFile
  index : (s.streams ()).buf.index = n * 256
  content : (s.streams ()).buf.content = ended (List.replicate n line)

theorem Typing.insert {n : Nat} {s : LogPipeline Unit} (h : Typing logFile n s) (hn : n ≤ 38)
    : ∃ s', Step s (.insert () (.view line)) s' ∧ s'.log = .init ∧ s'.logFile = logFile ∧
        (s'.streams ()).buf.index = n * 256 + 254 ∧
        (s'.streams ()).buf.content = ended (List.replicate n line) ++ line := by
  have hindex := h.index
  have hhead : headLevel = 10237 := rfl
  have hsafe : (s.streams ()).Safe := by
    unfold LogStream.Safe
    omega
  have hpiece : (Piece.view line).bytes.length < 2 ^ 31 := by
    rw [show (Piece.view line).bytes = line from rfl]
    rw [length_line]
    decide
  rcases LogStream.insert_spec hsafe hpiece with ⟨stream, hinsert, _, hwritten⟩
  have hstep : Step s (.insert () (.view line))
      { s with streams := Function.update s.streams () stream } := by
    simp only [Step, LogPipeline.step, hinsert]
    rfl
  have hbytes : (Piece.view line).bytes = line := rfl
  rw [hbytes] at hwritten
  cases hwritten with
  | kept _ hindex' hcontent' =>
    rw [hindex, length_line] at hindex'
    rw [h.content] at hcontent'
    refine ⟨_, hstep, h.log, h.file, ?_, ?_⟩
    . simpa using hindex'
    . simpa using hcontent'
  | dropped hfull _ =>
    rw [length_line] at hfull
    omega

omit [DecidableEq T] in
theorem given_eq {t : T} {stream : LogStream} (h : (s.streams t).end_ = some stream)
    : s.given t = stream.handed.drop (s.streams t).handed.length := by
  unfold given
  rw [h]

-- the message that the thread hands over with its last line
def lastMessage : List Byte := ended (List.replicate 39 line)

theorem length_lastMessage : lastMessage.length = 9984 := by
  simp [lastMessage, ended, length_line, LogBuffer.crlf]

theorem Typing.next {n : Nat} {s : LogPipeline Unit} (h : Typing logFile n s) (hn : n ≤ 38)
    : ∃ s', Typed logFile (n + 1) s' ∧
        (n < 38 ∧ Typing logFile (n + 1) s' ∨
          n = 38 ∧ s'.logFile = logFile ∧ s'.log = LogThread.init.apendMessage lastMessage) := by
  have hlow : lowLevel = 9984 := rfl
  have hhead : headLevel = 10237 := rfl
  rcases h.insert hn with ⟨s₁, hinsert, hlog, hfile, hindex, hcontent⟩
  have hsafe : (s₁.streams ()).Safe := by
    unfold LogStream.Safe
    omega
  have hline : (s₁.streams ()).buf.content ++ crlf = ended (List.replicate (n + 1) line) := by
    rw [hcontent]
    rw [List.replicate_succ']
    rw [ended_concat]
  rcases LogStream.end_cases hsafe with ⟨stream, hend, _, hcases⟩
  have hgiven := given_eq hend
  rw [hline] at hcases
  rcases hcases with ⟨hlt, hindex', hhanded, hcontent'⟩ | ⟨hle, hhanded, _⟩
  . rw [hhanded, List.drop_length] at hgiven
    have hmeets : s₁.Meets (.end_ ()) := by
      intro buf hbuf
      rw [hgiven] at hbuf
      cases hbuf
    have hstep : Step s₁ (.end_ ())
        { s₁ with streams := Function.update s₁.streams () stream } := by
      simp only [Step, LogPipeline.step, hend, hgiven]
      rfl
    have htyped := h.typed.next hinsert hmeets hstep
    refine ⟨_, htyped, Or.inl ⟨by omega, htyped, hlog, hfile, ?_, ?_⟩⟩
    . rw [hindex] at hindex'
      simp only [Function.update_self]
      omega
    . simpa using hcontent'
  . have heq : n = 38 := by omega
    subst heq
    rw [hhanded, List.drop_left] at hgiven
    have hlen : lastMessage.length ≤ LogThread.maxMessage := by
      rw [length_lastMessage]
      decide
    have hfits : (LogThread.init : LogThread Byte).Fits lastMessage := by
      unfold LogThread.Fits
      rw [length_lastMessage]
      decide
    have hmeets : s₁.Meets (.end_ ()) := by
      intro buf hbuf hfree
      rw [hlog]
      exact List.cons_ne_nil _ _
    have happend : s₁.log.step (.append lastMessage) = some (s₁.log.apendMessage lastMessage) :=
      LogThread.step_append_of_le hlen
    have hstep : Step s₁ (.end_ ())
        { s₁ with
          streams := Function.update s₁.streams () stream
          log := s₁.log.apendMessage lastMessage } := by
      have hgiven' : s₁.given () = [lastMessage] := hgiven
      simp [Step, LogPipeline.step, hend, hgiven', happend]
    exact ⟨_, h.typed.next hinsert hmeets hstep, Or.inr ⟨rfl, hfile, by rw [hlog]⟩⟩

theorem typing_of_le (logFile : LogFile) {n : Nat} (hn : n ≤ 38) : ∃ s, Typing logFile n s := by
  induction n with
  | zero => exact ⟨init logFile, ⟨[], .nil, rfl⟩, rfl, rfl, rfl, rfl⟩
  | succ n ih =>
    rcases ih (by omega) with ⟨s, h⟩
    rcases h.next (by omega) with ⟨s', _, ⟨_, h'⟩ | ⟨heq, _⟩⟩
    . exact ⟨s', h'⟩
    . omega

-- the message is in the current buffer
structure Reporting (logFile : LogFile) (s : LogPipeline Unit) : Prop where
  typed : Typed logFile 39 s
  file : s.logFile = logFile
  fitted : s.log.Fitted
  spare : s.log.preBuf ≠ []
  ready : s.log.readyBuf = []
  swapped : s.log.bufToWrite = []
  temp : s.log.temp = none
  text : lastMessage <+: s.log.filled

theorem reporting_of_new (logFile : LogFile) : ∃ s, Reporting logFile s := by
  rcases typing_of_le logFile (Nat.le_refl 38) with ⟨s, h⟩
  rcases h.next (Nat.le_refl 38) with ⟨s', htyped, ⟨hlt, _⟩ | ⟨_, hfile, hlog⟩⟩
  . omega
  . have hlen : lastMessage.length ≤ LogThread.maxMessage := by
      rw [length_lastMessage]
      decide
    have hfits : (LogThread.init : LogThread Byte).Fits lastMessage := by
      unfold LogThread.Fits
      rw [length_lastMessage]
      decide
    have heq := LogThread.apendMessage_of_fits hfits
    have happended := LogThread.fitted_init.append hlen
    refine ⟨s', htyped, hfile, ?_, ?_, ?_, ?_, ?_, ?_⟩ <;> rw [hlog]
    . exact happended.1
    . rw [heq]
      exact List.cons_ne_nil _ _
    . rw [heq]
      rfl
    . rw [heq]
      rfl
    . rw [heq]
      rfl
    . cases happended.2 with
      | fits _ _ hfilled =>
        have hempty : (LogThread.init : LogThread Byte).filled = [] := List.take_zero
        rw [hfilled]
        rw [hempty]
        rw [List.nil_append]
      | spare hnot => exact absurd hfits hnot
      | overflow hnot => exact absurd hfits hnot

def report : List Byte := List.replicate LogLoop.maxReport 33

theorem length_report : report.length = 255 := List.length_replicate

theorem Reporting.step {s : LogPipeline Unit} (h : Reporting logFile s)
    : Typed logFile 39 { s with log := s.log.apendMessage report } ∧
        (s.log.apendMessage report).Fitted ∧
        LogThread.Appended s.log (s.log.apendMessage report) report := by
  have hlen : report.length ≤ LogThread.maxMessage := by
    rw [length_report]
    decide
  have happend : s.log.step (.append report) = some (s.log.apendMessage report) :=
    LogThread.step_append_of_le hlen
  have hstep : Step s (.report report) { s with log := s.log.apendMessage report } := by
    simp [Step, LogPipeline.step, length_report, LogLoop.maxReport, happend]
  have hmeets : s.Meets (.report report) := fun _ => h.spare
  exact ⟨h.typed.step rfl hmeets hstep, h.fitted.append hlen⟩

-- the message is in a block that the log thread can take
structure Handed (logFile : LogFile) (block : LogBlock Byte) (s : LogPipeline Unit) : Prop where
  typed : Typed logFile 39 s
  file : s.logFile = logFile
  fitted : s.log.Fitted
  ready : s.log.readyBuf = [block]
  swapped : s.log.bufToWrite = []
  temp : s.log.temp = none
  text : lastMessage <+: block.contents

theorem Reporting.changes_now {s : LogPipeline Unit} (h : Reporting logFile s)
    (hfits : ¬s.log.Fits report) : ∃ s' block, Handed logFile block s' := by
  rcases h.step with ⟨htyped, hfitted, _⟩
  rcases List.eq_nil_or_concat s.log.preBuf with hnil | ⟨rest, spare, hspare⟩
  . exact absurd hnil h.spare
  . rw [List.concat_eq_append] at hspare
    have heq := LogThread.apendMessage_of_spare hfits hspare
    refine ⟨_, { buf := s.log.currentBuf, size := s.log.currentBufIndex }, htyped, h.file, hfitted,
      ?_, ?_, ?_, h.text⟩ <;> simp only [heq]
    . rw [h.ready]
      rfl
    . exact h.swapped
    . exact h.temp

-- the log thread reports until it needs a new buffer
theorem Reporting.changes {s : LogPipeline Unit} (n : Nat) (h : Reporting logFile s)
    (hn : LogThread.bufSize - s.log.currentBufIndex ≤ n) : ∃ s' block, Handed logFile block s' := by
  induction n generalizing s with
  | zero =>
    have hfits : ¬s.log.Fits report := by
      unfold LogThread.Fits
      rw [length_report]
      omega
    exact h.changes_now hfits
  | succ n ih =>
    by_cases hfits : s.log.Fits report
    . rcases h.step with ⟨htyped, hfitted, happended⟩
      have heq := LogThread.apendMessage_of_fits hfits
      have hnext : Reporting logFile { s with log := s.log.apendMessage report } := by
        refine ⟨htyped, h.file, hfitted, ?_, ?_, ?_, ?_, ?_⟩ <;> simp only
        . rw [heq]
          exact h.spare
        . rw [heq]
          exact h.ready
        . rw [heq]
          exact h.swapped
        . rw [heq]
          exact h.temp
        . cases happended with
          | fits _ _ hfilled =>
            rw [hfilled]
            exact h.text.trans (List.prefix_append _ _)
          | spare hnot => exact absurd hfits hnot
          | overflow hnot => exact absurd hfits hnot
      apply ih hnext
      simp only [heq]
      rw [length_report]
      omega
    . exact h.changes_now hfits

-- and writes the block
theorem Handed.writes {s : LogPipeline Unit} {block : LogBlock Byte} (h : Handed logFile block s)
    (hempty : logFile.writeBytes = 0 ∧ logFile.file.content = [])
    : ∃ s', Typed logFile 39 s' ∧ s'.logFile.file.content = block.contents := by
  let call : LogFile.Call :=
    { message := block.contents, fwrite := LogFile.bytewise.fwrite, tm := LogFile.bytewise.tm }
  have hprogress : LogFile.Progress call := LogFile.progress_bytewise
  rcases LogFile.writeMessage_spec hprogress s.logFile with ⟨hspec, logFile', iterations, hwrite⟩
  let swapped : LogThread Byte := { s.log with bufToWrite := [block], readyBuf := [] }
  let taken : LogThread Byte := { swapped with bufToWrite := [], temp := some (block, false) }
  let written : LogThread Byte :=
    { taken with file := s.log.file ++ block.contents, temp := some (block, true) }
  have hswap : Step s .swap { s with log := swapped } := by
    simp [Step, LogPipeline.step, LogThread.step, h.ready, h.swapped, h.temp, swapped]
  have htake : Step { s with log := swapped } .take { s with log := taken } := by
    simp [Step, LogPipeline.step, LogThread.step, swapped, taken, h.temp]
  have hlast : Step { s with log := taken } (.write call.fwrite call.tm iterations)
      { s with log := written, logFile := logFile' } := by
    have hfile : s.logFile.writeMessage iterations
        { message := block.contents, fwrite := call.fwrite, tm := call.tm } = some logFile' := hwrite
    simp [Step, LogPipeline.step, LogThread.step, taken, swapped, written, hfile]
  have htaken := (h.typed.step rfl (by trivial) hswap).step rfl (by trivial) htake
  have hlen : block.contents.length ≤ LogThread.bufSize := by
    rw [← h.fitted.ready block (by simp [h.ready])]
    exact List.length_take_le' _ _
  have hroom : ¬(s.logFile.appended call).writeBytes > LogFile.maxSizePreFile := by
    have hsize : LogThread.bufSize ≤ LogFile.maxSizePreFile := by decide
    simp only [LogFile.appended, h.file, hempty.1, call]
    omega
  have hfile := hspec logFile' ⟨iterations, hwrite⟩
  rw [if_neg hroom] at hfile
  refine ⟨_, htaken.step rfl ?_ hlast, ?_⟩
  . exact LogFile.progress_bytewise
  . simp [hfile, LogFile.appended, h.file, hempty.2, call]

theorem lines_of_run_written
    : ∃ (es : List (Event Unit)) (s : LogPipeline Unit) (ms : List (Message Unit)),
        line ++ crlf <+: s.logFile.file.content ∧
        Laid (places s.log s.logFile) (ms.map Message.bytes) ∧
        ∀ t, ∃ pending,
          linesOf t ms ++ pending = (lines (own t es)).ended ∧
          (s.streams t).buf.content = ended pending ++ (lines (own t es)).current := by
  rcases LogFile.openFile_isSome LogFile.bytewise.tm 1 [] with ⟨logFile, hnew⟩
  rcases LogFile.openFile_eq hnew with ⟨hbytes, _, hcontent, _⟩
  rcases reporting_of_new logFile with ⟨s₁, h₁⟩
  rcases h₁.changes _ (Nat.le_refl _) with ⟨s₂, block, h₂⟩
  rcases h₂.writes ⟨hbytes, hcontent⟩ with ⟨s, ⟨es, hrun, hlines⟩, hfile⟩
  rcases lines_of_run hnew (short_of_lines hlines) hrun with ⟨ms, hlaid, hms⟩
  refine ⟨es, s, ms, ?_, hlaid, hms⟩
  rw [hfile]
  refine List.IsPrefix.trans ?_ h₂.text
  exact ⟨ended (List.replicate 38 line), rfl⟩

end LogPipeline
end Fish
