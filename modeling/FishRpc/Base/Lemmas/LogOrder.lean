import FishRpc.Base.Lemmas.LogThread

/-!
This module contains the order of the messages in the log file. Each byte is stamped with the number
of the append that it comes from, and the stamps are in order as long as each block is written when
no other block of its batch is left.
-/

namespace Fish

def LogBlock.map {α β : Type} (f : α → β) (block : LogBlock α) : LogBlock β :=
  { buf := block.buf.map f, size := block.size }

namespace LogThread

/-! ### Erasing -/

section

variable {α β : Type} (f : α → β)

def map (t : LogThread α) : LogThread β where
  currentBuf := t.currentBuf.map f
  currentBufIndex := t.currentBufIndex
  preBuf := t.preBuf.map (List.map f)
  readyBuf := t.readyBuf.map (LogBlock.map f)
  bufToWrite := t.bufToWrite.map (LogBlock.map f)
  temp := t.temp.map fun temp => (LogBlock.map f temp.1, temp.2)
  file := t.file.map f

def Event.map (f : List α → List β) : Event α → Event β
  | append buf => .append (f buf)
  | swap => .swap
  | take => .take
  | write => .write
  | recycle => .recycle

theorem map_memcpy (dst src : List α) (off : Nat)
    : (memcpy dst off src).map f = memcpy (dst.map f) off (src.map f) := by
  simp [memcpy]

theorem push_map (t : LogThread α) (buf : List α)
    : (t.push buf).map f = (t.map f).push (buf.map f) := by
  unfold push
  simp only [map, List.length_map]
  split
  . rfl
  . simp

variable [LogChar α] [LogChar β] {f} (hf : ∀ b, f (LogChar.ofByte b) = LogChar.ofByte b)

include hf

theorem map_overFlowMes : (overFlowMes : List α).map f = overFlowMes := by
  simp [overFlowMes, hf]

theorem map_init : (init : LogThread α).map f = init := by
  simp [init, map, emptyBuf, hf]

theorem changeBuf_map (t : LogThread α) : t.changeBuf.map f = (t.map f).changeBuf := by
  unfold changeBuf
  have hlast : (t.map f).preBuf.getLast? = t.preBuf.getLast?.map (List.map f) := by
    simp [map]
  rw [hlast]
  cases t.preBuf.getLast? with
  | none => simp [map, map_memcpy, map_overFlowMes hf]
  | some buf => simp [map, LogBlock.map]

theorem apendMessage_map (t : LogThread α) (buf : List α)
    : (t.apendMessage buf).map f = (t.map f).apendMessage (buf.map f) := by
  have hfree : (t.map f).freeSize = t.freeSize := rfl
  unfold apendMessage
  rw [hfree, List.length_map]
  split
  . rw [← changeBuf_map hf]
    simp [map, map_memcpy]
  . simp [map, map_memcpy]

theorem step_map (t : LogThread α) (e : Event α)
    : (t.map f).step (e.map (List.map f)) = (t.step e).map (map f) := by
  cases e with
  | append buf =>
    simp only [Event.map, step, List.length_map]
    split
    . rw [← apendMessage_map hf]
      rfl
    . rfl
  | swap =>
    simp only [Event.map, step]
    by_cases hswap : t.readyBuf ≠ [] ∧ t.bufToWrite = [] ∧ t.temp = none
    . simp [hswap, map]
    . rw [if_neg hswap, if_neg]
      . rfl
      . simpa [map] using hswap
  | take =>
    simp only [Event.map, step]
    cases ht : t.temp <;> cases hl : t.bufToWrite.getLast? <;> simp [map, ht, hl]
  | write =>
    simp only [Event.map, step]
    rcases ht : t.temp with _ | ⟨block, _ | _⟩
    . simp [map, ht]
    . simp [map, ht, LogBlock.map, LogBlock.contents]
    . simp [map, ht]
  | recycle =>
    simp only [Event.map, step]
    rcases ht : t.temp with _ | ⟨block, _ | _⟩
    . simp [map, ht]
    . simp [map, ht]
    . have htemp : (t.map f).temp = some (block.map f, true) := by simp [map, ht]
      rw [htemp]
      simp only [LogBlock.map]
      rw [← push_map]
      rfl

end

/-! ### Stamps -/

-- `now` is the number of the next step
structure Stamped where
  log : LogThread (Byte × Option Nat)
  now : Nat

namespace Stamped

def stamp (now : Nat) (buf : List Byte) : List (Byte × Option Nat) := buf.map fun b => (b, some now)

def init : Stamped := { log := LogThread.init, now := 0 }

def step (s : Stamped) (e : Event Byte) : Option Stamped :=
  (s.log.step (e.map (stamp s.now))).map fun log => { log := log, now := s.now + 1 }

def Step (s : Stamped) (e : Event Byte) (s' : Stamped) : Prop := s.step e = some s'

variable {s s' : Stamped} {e : Event Byte} {es : List (Event Byte)}

theorem step_log (h : Step s e s')
    : LogThread.Step s.log (e.map (stamp s.now)) s'.log ∧ s'.now = s.now + 1 := by
  rcases Option.map_eq_some_iff.mp h with ⟨log, hlog, rfl⟩
  exact ⟨hlog, rfl⟩

theorem step_erase (h : Step s e s')
    : LogThread.Step (s.log.map Prod.fst) e (s'.log.map Prod.fst) := by
  have hevent : (e.map (stamp s.now)).map (List.map Prod.fst) = e := by
    cases e <;> simp [Event.map, stamp, Function.comp_def]
  have hstep := step_map (f := Prod.fst) (fun _ => rfl) s.log (e.map (stamp s.now))
  rw [hevent, (step_log h).1] at hstep
  apply hstep

/--
Without the stamps a run is one of the log thread.
-/
theorem run_erase {Meets : LogThread Byte → Event Byte → Prop}
    (h : Run Step (fun s => Meets (s.log.map Prod.fst)) init es s)
    : Run LogThread.Step Meets LogThread.init es (s.log.map Prod.fst) := by
  induction h with
  | nil =>
    have hinit : init.log.map Prod.fst = LogThread.init := map_init fun _ => rfl
    rw [hinit]
    apply Run.nil
  | snoc _ hmeets hstep ih => exact .snoc ih hmeets (step_erase hstep)

def stamps (places : List (List (Byte × Option Nat))) : List Nat :=
  places.flatten.filterMap Prod.snd

-- a byte of an earlier append never comes after a byte of a later one
def Ordered (s : Stamped) : Prop := (stamps [s.log.file]).Pairwise (· ≤ ·)

-- `flushToFile` writes a block when no other block of the batch is left
def LastLeft (s : Stamped) : Event Byte → Prop
  | .write => s.log.bufToWrite = []
  | _ => True

structure Inv (s : Stamped) : Prop where
  fitted : Fitted s.log
  sorted : (stamps s.log.places).Pairwise (· ≤ ·)
  past : ∀ n ∈ stamps s.log.places, n < s.now

theorem stamps_append (places places' : List (List (Byte × Option Nat)))
    : stamps (places ++ places') = stamps places ++ stamps places' := by
  simp [stamps]

theorem stamps_stamp (now : Nat) (buf : List Byte)
    : (stamp now buf).filterMap Prod.snd = List.replicate buf.length now := by
  simp [stamp, List.filterMap_map]

theorem stamps_ofByte (bytes : List Byte)
    : (bytes.map (LogChar.ofByte : Byte → Byte × Option Nat)).filterMap Prod.snd = [] := by
  simp [LogChar.ofByte, List.filterMap_map]

theorem stamps_overFlowMes (n : Nat)
    : ((overFlowMes : List (Byte × Option Nat)).take n).filterMap Prod.snd = [] := by
  unfold overFlowMes
  rw [← List.map_take]
  apply stamps_ofByte

theorem stamps_apendMessage {t : LogThread (Byte × Option Nat)} {now : Nat} {buf : List Byte}
    (hfitted : Fitted t) (hlen : (stamp now buf).length ≤ maxMessage)
    : ∃ kept, kept.Sublist (stamps t.places) ∧
        stamps (t.apendMessage (stamp now buf)).places = kept ++ List.replicate buf.length now := by
  rw [← stamps_stamp]
  unfold places
  rw [stamps_append, stamps_append]
  cases (hfitted.append hlen).2 with
  | fits _ hstored hfilled =>
    refine ⟨stamps t.stored ++ stamps [t.filled], List.Sublist.refl _, ?_⟩
    rw [hstored, hfilled]
    simp [stamps]
  | spare _ _ hstored hfilled =>
    refine ⟨stamps t.stored ++ stamps [t.filled], List.Sublist.refl _, ?_⟩
    rw [hstored, hfilled, stamps_append]
    simp [stamps]
  | overflow _ _ hstored hfilled =>
    -- the messages in the current buffer are lost, and what replaces them has no stamp
    refine ⟨stamps t.stored, List.sublist_append_left _ _, ?_⟩
    rw [hstored, hfilled]
    simp [stamps, stamps_overFlowMes]

theorem stamps_step {t t' : LogThread (Byte × Option Nat)} {e : Event (Byte × Option Nat)}
    (h : LogThread.Step t e t') (happend : e.message? = none)
    (hwrite : e = .write → t.bufToWrite = []) : stamps t'.places = stamps t.places := by
  cases e with
  | append buf => cases happend
  | swap => rw [places_swap h]
  | take => rw [places_take h]
  | write =>
    rcases places_write h with ⟨message, rest, hplaces, hplaces'⟩
    rw [hplaces, hplaces', hwrite rfl]
    simp [stamps]
  | recycle => rw [places_recycle h]

theorem inv_init : Inv init := by
  have hstamps : stamps init.log.places = [] := rfl
  constructor
  . apply fitted_init
  . rw [hstamps]
    apply List.Pairwise.nil
  . rw [hstamps]
    intro n hn
    cases hn

theorem Inv.step (h : Inv s) (hlast : LastLeft s e) (hstep : Step s e s') : Inv s' := by
  rcases step_log hstep with ⟨hlog, hnow⟩
  have hfitted := h.fitted.step hlog
  cases e with
  | append buf =>
    rcases step_append hlog with ⟨hlen, heq⟩
    rcases stamps_apendMessage h.fitted hlen with ⟨kept, hsub, hstamps⟩
    rw [← heq] at hstamps
    constructor
    . apply hfitted
    . rw [hstamps, List.pairwise_append]
      refine ⟨h.sorted.sublist hsub, List.pairwise_replicate.mpr (Or.inr (Nat.le_refl _)), ?_⟩
      intro n hn m hm
      rw [List.eq_of_mem_replicate hm]
      apply Nat.le_of_lt (h.past n (hsub.subset hn))
    . rw [hstamps, hnow]
      intro n hn
      rcases List.mem_append.mp hn with hn | hn
      . apply Nat.lt_succ_of_lt (h.past n (hsub.subset hn))
      . rw [List.eq_of_mem_replicate hn]
        apply Nat.lt_succ_self
  | swap | take | write | recycle =>
    have hstamps := stamps_step hlog rfl (by first | exact fun _ => hlast | simp [Event.map])
    refine ⟨hfitted, ?_, ?_⟩
    . rw [hstamps]
      apply h.sorted
    . rw [hstamps, hnow]
      intro n hn
      apply Nat.lt_succ_of_lt (h.past n hn)

/--
As long as each block is written when no other block of its batch is left, the messages are in the
file in the order in which they were appended.
-/
theorem ordered_of_run (h : Run Step LastLeft init es s) : s.Ordered := by
  have hinv : Inv s := h.invariant inv_init fun s e s' hs hlast hstep => hs.step hlast hstep
  have hfile : stamps s.log.places = stamps [s.log.file] ++ stamps (s.log.places.drop 1) := by
    rw [← stamps_append]
    rfl
  have hsorted := hinv.sorted
  rw [hfile] at hsorted
  apply (List.pairwise_append.mp hsorted).1

/-! ### A batch of two blocks -/

def message : List Byte := List.replicate maxMessage 97

-- there are `n` messages in the current buffer
structure Filling (s : Stamped) (n : Nat) : Prop where
  fitted : Fitted s.log
  index : s.log.currentBufIndex = n * maxMessage

theorem length_stamp (now : Nat) : (stamp now message).length = maxMessage := by
  rw [stamp, List.length_map, message, List.length_replicate]

theorem step_message (s : Stamped)
    : Step s (.append message)
        { log := s.log.apendMessage (stamp s.now message), now := s.now + 1 } := by
  have hle : (stamp s.now message).length ≤ maxMessage := Nat.le_of_eq (length_stamp s.now)
  have hstep := step_append_of_le (t := s.log) hle
  apply Option.map_eq_some_iff.mpr
  exact ⟨_, hstep, rfl⟩

theorem Filling.fits_iff {n : Nat} (h : Filling s n)
    : s.log.Fits (stamp s.now message) ↔ n < 10 :=
  fits_iff_lt h.index (length_stamp s.now)

theorem message_fits {n : Nat} (h : Filling s n) (hn : n < 10)
    : ∃ s', Step s (.append message) s' ∧ s'.now = s.now + 1 ∧ Filling s' (n + 1) ∧
        s'.log.filled = s.log.filled ++ stamp s.now message ∧
        s'.log = { s.log with
          currentBuf := s'.log.currentBuf, currentBufIndex := s'.log.currentBufIndex } := by
  have hle : (stamp s.now message).length ≤ maxMessage := Nat.le_of_eq (length_stamp s.now)
  have hfits : s.log.Fits (stamp s.now message) := h.fits_iff.mpr hn
  have heq := apendMessage_of_fits hfits
  refine ⟨_, step_message s, rfl, ⟨(h.fitted.append hle).1, ?_⟩, ?_, ?_⟩
  . exact index_apendMessage h.index (length_stamp s.now) hn
  . cases (h.fitted.append hle).2 with
    | fits _ _ hfilled => apply hfilled
    | spare hnot => exact absurd hfits hnot
    | overflow hnot => exact absurd hfits hnot
  . simp only [heq]

theorem message_spare {spare : List (Byte × Option Nat)} {rest : List (List (Byte × Option Nat))}
    (h : Filling s 10) (hspare : s.log.preBuf = rest ++ [spare])
    : ∃ s' block, Step s (.append message) s' ∧ Filling s' 1 ∧
        s'.log.filled = stamp s.now message ∧ block.contents = s.log.filled ∧
        s'.log = { s.log with
          currentBuf := s'.log.currentBuf, currentBufIndex := s'.log.currentBufIndex,
          preBuf := rest, readyBuf := s.log.readyBuf ++ [block] } := by
  have hle : (stamp s.now message).length ≤ maxMessage := Nat.le_of_eq (length_stamp s.now)
  have hnot : ¬s.log.Fits (stamp s.now message) := by
    rw [h.fits_iff]
    decide
  have heq := apendMessage_of_spare hnot hspare
  refine ⟨_, { buf := s.log.currentBuf, size := s.log.currentBufIndex }, step_message s,
    ⟨(h.fitted.append hle).1, ?_⟩, ?_, rfl, ?_⟩
  . rw [heq]
    simp only [length_stamp]
    omega
  . cases (h.fitted.append hle).2 with
    | fits hfits => exact absurd hfits hnot
    | spare _ _ _ hfilled => apply hfilled
    | overflow _ hnone => simp [hspare] at hnone
  . simp only [heq]

theorem fill {n : Nat} (m : Nat) (h : Filling s n) (hn : n + m = 10)
    : ∃ es s', Run Step LastLeft s es s' ∧ s'.now = s.now + m ∧ Filling s' 10 ∧
        s.log.filled <+: s'.log.filled ∧
        s'.log = { s.log with
          currentBuf := s'.log.currentBuf, currentBufIndex := s'.log.currentBufIndex } := by
  induction m generalizing s n with
  | zero =>
    rw [Nat.add_zero] at hn
    subst hn
    exact ⟨[], s, .nil, rfl, h, List.prefix_refl _, rfl⟩
  | succ m ih =>
    rcases message_fits h (by omega) with ⟨s₁, hstep, hnow, hfilling, hfilled, hlog⟩
    rcases ih hfilling (by omega) with ⟨es, s₂, hrun, hnow', hfilling', hprefix, hlog'⟩
    rw [hfilled] at hprefix
    refine ⟨[Event.append message] ++ es, s₂, Run.append (.snoc .nil trivial hstep) hrun, ?_,
      hfilling', (List.prefix_append _ _).trans hprefix, ?_⟩
    . omega
    . rw [hlog', hlog]

theorem fill_block {spare : List (Byte × Option Nat)} {rest : List (List (Byte × Option Nat))}
    (h : Filling s 1) (hspare : s.log.preBuf = rest ++ [spare])
    : ∃ es s' block, Run Step LastLeft s es s' ∧ Filling s' 1 ∧
        s'.log.filled = stamp (s.now + 9) message ∧ s.log.filled <+: block.contents ∧
        s'.log = { s.log with
          currentBuf := s'.log.currentBuf, currentBufIndex := s'.log.currentBufIndex,
          preBuf := rest, readyBuf := s.log.readyBuf ++ [block] } := by
  rcases fill 9 h rfl with ⟨es, s₁, hrun, hnow, hfilling, hprefix, hlog⟩
  have hspare₁ : s₁.log.preBuf = rest ++ [spare] := by
    rw [hlog]
    apply hspare
  rcases message_spare hfilling hspare₁ with
    ⟨s₂, block, hstep, hfilling', hfilled, hcontents, hlog'⟩
  rw [hnow] at hfilled
  rw [← hcontents] at hprefix
  have hlast : s₁.LastLeft (.append message) := trivial
  refine ⟨_, s₂, block, .snoc hrun hlast hstep, hfilling', hfilled, hprefix, ?_⟩
  rw [hlog', hlog]

theorem step_of_log {log : LogThread (Byte × Option Nat)}
    (h : s.log.step (e.map (stamp s.now)) = some log)
    : Step s e { log := log, now := s.now + 1 } := by
  apply Option.map_eq_some_iff.mpr
  exact ⟨log, h, rfl⟩

theorem flush_last {block : LogBlock (Byte × Option Nat)}
    {rest : List (LogBlock (Byte × Option Nat))} (Meets : Stamped → Event Byte → Prop)
    (hmeets : ∀ s e, (e = .write → s.log.bufToWrite = rest) → Meets s e)
    (hwrite : s.log.bufToWrite = rest ++ [block]) (htemp : s.log.temp = none)
    : ∃ es s', Run Step Meets s es s' ∧ s'.log.bufToWrite = rest ∧ s'.log.temp = none ∧
        s'.log.file = s.log.file ++ block.contents := by
  let taken : LogThread (Byte × Option Nat) :=
    { s.log with bufToWrite := rest, temp := some (block, false) }
  let written : LogThread (Byte × Option Nat) :=
    { taken with file := s.log.file ++ block.contents, temp := some (block, true) }
  rcases written.push_eq block.buf with ⟨preBuf, hpush, _⟩
  have htake : Step s .take ⟨taken, s.now + 1⟩ := by
    apply step_of_log
    simp [LogThread.step, Event.map, hwrite, htemp, taken]
  have hwritten : Step ⟨taken, s.now + 1⟩ .write ⟨written, s.now + 1 + 1⟩ := by
    apply step_of_log
    rfl
  have hrecycle : Step ⟨written, s.now + 1 + 1⟩ .recycle
      ⟨{ written with preBuf := preBuf, temp := none }, s.now + 1 + 1 + 1⟩ := by
    apply step_of_log
    simp only [LogThread.step, Event.map, written]
    rw [hpush]
  have hne : (Event.take : Event Byte) ≠ .write := by simp
  have hne' : (Event.recycle : Event Byte) ≠ .write := by simp
  have hrun : Run Step Meets s _ _ :=
    .snoc
      (.snoc (.snoc .nil (hmeets s .take fun h => absurd h hne) htake)
        (hmeets _ .write fun _ => rfl) hwritten)
      (hmeets _ .recycle fun h => absurd h hne') hrecycle
  exact ⟨_, _, hrun, rfl, rfl, rfl⟩

theorem swap_ready (hready : s.log.readyBuf ≠ []) (hwrite : s.log.bufToWrite = [])
    (htemp : s.log.temp = none)
    : ∃ s', Step s .swap s' ∧ s'.log.bufToWrite = s.log.readyBuf ∧ s'.log.temp = none ∧
        s'.log.file = s.log.file := by
  refine ⟨⟨{ s.log with bufToWrite := s.log.readyBuf, readyBuf := [] }, s.now + 1⟩, ?_, rfl, htemp,
    rfl⟩
  apply step_of_log
  simp [LogThread.step, Event.map, hready, hwrite, htemp]

theorem first_block
    : ∃ es s block, Run Step LastLeft init es s ∧ Filling s 1 ∧
        s.log.filled = stamp 10 message ∧ stamp 0 message <+: block.contents ∧
        s.log = { init.log with
          currentBuf := s.log.currentBuf, currentBufIndex := s.log.currentBufIndex,
          preBuf := [emptyBuf, emptyBuf, emptyBuf], readyBuf := [block] } := by
  have hempty : Filling init 0 := ⟨fitted_init, rfl⟩
  rcases message_fits hempty (by decide) with ⟨s₁, hstep, hnow, hfilling, hfilled, hlog⟩
  have hspare : s₁.log.preBuf = [emptyBuf, emptyBuf, emptyBuf] ++ [emptyBuf] := by
    rw [hlog]
    rfl
  rcases fill_block hfilling hspare with ⟨_, s₂, block, hrun, hfilling', hfilled', hprefix, hlog'⟩
  rw [hfilled] at hprefix
  rw [hnow] at hfilled'
  have hfirst : Run Step LastLeft init [.append message] s₁ := .snoc .nil trivial hstep
  refine ⟨_, s₂, block, Run.append hfirst hrun, hfilling', hfilled', hprefix, ?_⟩
  rw [hlog', hlog]
  rfl

theorem mem_stamps_begin {x : List (Byte × Option Nat)} {now : Nat}
    (h : stamp now message <+: x) : now ∈ stamps [x] := by
  have hmem : (97, some now) ∈ stamp now message := by
    apply List.mem_map.mpr
    refine ⟨97, ?_, rfl⟩
    apply List.mem_replicate.mpr
    decide
  apply List.mem_filterMap.mpr
  refine ⟨(97, some now), ?_, rfl⟩
  rw [List.flatten_singleton]
  apply h.subset hmem

theorem not_pairwise_begin {x y : List (Byte × Option Nat)} {m n : Nat}
    (hx : stamp m message <+: x) (hy : stamp n message <+: y) (h : n < m)
    : ¬(stamps [x ++ y]).Pairwise (· ≤ ·) := by
  intro hsorted
  have happend : stamps [x ++ y] = stamps [x] ++ stamps [y] := by simp [stamps]
  rw [happend] at hsorted
  have hle := (List.pairwise_append.mp hsorted).2.2 m (mem_stamps_begin hx) n
    (mem_stamps_begin hy)
  omega

theorem ordered_of_run_block : ∃ s : Stamped, 0 ∈ stamps [s.log.file] ∧ s.Ordered := by
  rcases first_block with ⟨_, s₁, block, hrun, _, _, hprefix, hlog⟩
  have hrest : s₁.log.readyBuf = [block] ∧ s₁.log.bufToWrite = [] ∧ s₁.log.temp = none ∧
      s₁.log.file = [] := by
    rw [hlog]
    exact ⟨rfl, rfl, rfl, rfl⟩
  rcases hrest with ⟨hready, hwrite, htemp, hfile⟩
  rcases swap_ready (by simp [hready]) hwrite htemp with ⟨s₂, hswap, hwrite₂, htemp₂, hfile₂⟩
  rw [hready] at hwrite₂
  have hlast : ∀ s e, (e = .write → s.log.bufToWrite = []) → LastLeft s e := by
    intro s e he
    cases e with
    | write => apply he rfl
    | append | swap | take | recycle => trivial
  rcases flush_last LastLeft hlast hwrite₂ htemp₂ with ⟨_, s₃, hrun', _, _, hfile₃⟩
  have hswapped := Run.snoc hrun (hlast s₁ .swap nofun) hswap
  refine ⟨s₃, ?_, ordered_of_run (Run.append hswapped hrun')⟩
  rw [hfile₃, hfile₂, hfile, List.nil_append]
  apply mem_stamps_begin hprefix

/--
The second of two blocks in a batch is written before the first one.
-/
theorem flush_two {block block' : LogBlock (Byte × Option Nat)}
    (hready : s.log.readyBuf = [block, block']) (hwrite : s.log.bufToWrite = [])
    (htemp : s.log.temp = none)
    : ∃ es s', Run Step Run.Always s es s' ∧
        s'.log.file = s.log.file ++ block'.contents ++ block.contents := by
  rcases swap_ready (by simp [hready]) hwrite htemp with ⟨s₁, hswap, hwrite₁, htemp₁, hfile₁⟩
  have hsplit : s₁.log.bufToWrite = [] ++ [block] ++ [block'] := by
    rw [hwrite₁, hready]
    rfl
  rcases flush_last Run.Always (fun _ _ _ => trivial) hsplit htemp₁ with
    ⟨_, s₂, hrun₂, hwrite₂, htemp₂, hfile₂⟩
  rcases flush_last Run.Always (fun _ _ _ => trivial) hwrite₂ htemp₂ with
    ⟨_, s₃, hrun₃, _, _, hfile₃⟩
  refine ⟨_, s₃, Run.append (Run.append (.snoc .nil trivial hswap) hrun₂) hrun₃, ?_⟩
  rw [hfile₃, hfile₂, hfile₁]

theorem not_ordered_two : ∃ es s, Run Step Run.Always init es s ∧ ¬s.Ordered := by
  rcases first_block with ⟨_, s₁, block, hrun₁, hfilling, hfilled, hprefix, hlog₁⟩
  have hspare : s₁.log.preBuf = [emptyBuf, emptyBuf] ++ [emptyBuf] := by
    rw [hlog₁]
    rfl
  rcases fill_block hfilling hspare with ⟨_, s₂, block', hrun₂, _, _, hprefix', hlog₂⟩
  have hrest : s₂.log.readyBuf = [block, block'] ∧ s₂.log.bufToWrite = [] ∧ s₂.log.temp = none ∧
      s₂.log.file = [] := by
    rw [hlog₂, hlog₁]
    exact ⟨rfl, rfl, rfl, rfl⟩
  rcases hrest with ⟨hready, hwrite, htemp, hfile₂⟩
  rcases flush_two hready hwrite htemp with ⟨_, s₃, hrun₃, hfile₃⟩
  refine ⟨_, s₃, Run.append (Run.append hrun₁ hrun₂).always hrun₃, ?_⟩
  unfold Ordered
  rw [hfile₃, hfile₂, List.nil_append]
  rw [hfilled] at hprefix'
  apply not_pairwise_begin hprefix' hprefix
  decide

end Stamped
end LogThread
end Fish
