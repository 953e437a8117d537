import FishRpc.Base.Impl.LogThread
import FishRpc.Lib.Layout
import FishRpc.Lib.Run

/-!
This module contains what the steps of the log thread do to the places that hold messages: the file,
the swapped blocks, the block in transit, the ready blocks and the current buffer. From it follows
that nothing is lost as long as a spare buffer is left whenever a new one is needed.
-/

namespace Fish
namespace LogThread

variable {α : Type}

theorem length_memcpy {dst src : List α} {off : Nat} (h : off + src.length ≤ dst.length)
    : (memcpy dst off src).length = dst.length := by
  simp only [memcpy, List.length_append, List.length_take, List.length_drop]
  omega

theorem take_memcpy {dst src : List α} {off : Nat} (h : off ≤ dst.length)
    : (memcpy dst off src).take (off + src.length) = dst.take off ++ src := by
  have hlen : off + src.length = (dst.take off ++ src).length := by
    rw [List.length_append, List.length_take]
    omega
  unfold memcpy
  rw [hlen]
  apply List.take_left

/-! ### Places -/

def filled (t : LogThread α) : List α := t.currentBuf.take t.currentBufIndex

def inTransit (t : LogThread α) : List (LogBlock α) :=
  match t.temp with
  | some (block, false) => [block]
  | _ => []

-- all places but the current buffer
def stored (t : LogThread α) : List (List α) :=
  t.file :: (t.bufToWrite ++ t.inTransit ++ t.readyBuf).map LogBlock.contents

def places (t : LogThread α) : List (List α) := t.stored ++ [t.filled]

structure Fitted (t : LogThread α) : Prop where
  current : t.currentBuf.length = bufSize
  index : t.currentBufIndex ≤ bufSize
  spare : ∀ buf ∈ t.preBuf, buf.length = bufSize
  ready : ∀ block ∈ t.readyBuf, block.buf.length = bufSize
  swapped : ∀ block ∈ t.bufToWrite, block.buf.length = bufSize
  transit : ∀ temp, t.temp = some temp → temp.1.buf.length = bufSize

def Fits (t : LogThread α) (buf : List α) : Prop := t.currentBufIndex + buf.length ≤ bufSize

theorem freeSize_lt_iff (t : LogThread α) (buf : List α)
    : t.freeSize < buf.length ↔ ¬t.Fits buf := by
  unfold freeSize Fits
  omega

variable [LogChar α] {t t' : LogThread α} {buf : List α}

theorem apendMessage_of_fits (h : t.Fits buf)
    : t.apendMessage buf
        =
      { t with
        currentBuf := memcpy t.currentBuf t.currentBufIndex buf
        currentBufIndex := t.currentBufIndex + buf.length } := by
  unfold apendMessage
  rw [if_neg]
  rw [freeSize_lt_iff]
  apply not_not_intro h

theorem apendMessage_of_spare {spare : List α} {rest : List (List α)} (h : ¬t.Fits buf)
    (hspare : t.preBuf = rest ++ [spare])
    : t.apendMessage buf
        =
      { t with
        currentBuf := memcpy spare 0 buf
        currentBufIndex := 0 + buf.length
        preBuf := rest
        readyBuf := t.readyBuf ++ [{ buf := t.currentBuf, size := t.currentBufIndex }] } := by
  have hlast : t.preBuf.getLast? = some spare := by simp [hspare]
  have hinit : t.preBuf.dropLast = rest := by simp [hspare]
  unfold apendMessage
  rw [if_pos ((t.freeSize_lt_iff buf).mpr h)]
  simp only [changeBuf, hlast, hinit]

theorem apendMessage_of_overflow (h : ¬t.Fits buf) (hspare : t.preBuf = [])
    : t.apendMessage buf
        =
      { t with
        currentBuf := memcpy (memcpy t.currentBuf 0 overFlowMes) sizeofPointer buf
        currentBufIndex := sizeofPointer + buf.length } := by
  unfold apendMessage
  rw [if_pos ((t.freeSize_lt_iff buf).mpr h)]
  simp only [changeBuf, hspare, List.getLast?_nil]

theorem bufSize_eq : bufSize = 102400 := rfl

theorem length_overFlowMes : (overFlowMes : List α).length = 27 := by
  simp [overFlowMes]

theorem take_memcpy_overFlowMes (dst : List α)
    : (memcpy dst 0 overFlowMes).take sizeofPointer = overFlowMes.take sizeofPointer := by
  have hle : sizeofPointer ≤ (overFlowMes : List α).length := by
    rw [length_overFlowMes]
    decide
  unfold memcpy
  rw [List.take_zero, List.nil_append]
  apply List.take_append_of_le_length hle

section

variable (h : Fitted t)

include h

theorem Fitted.append_of_fits (hfits : t.Fits buf) : Fitted (t.apendMessage buf) := by
  rw [apendMessage_of_fits hfits]
  constructor
  . rw [← h.current]
    apply length_memcpy
    rw [h.current]
    apply hfits
  . apply hfits
  . apply h.spare
  . apply h.ready
  . apply h.swapped
  . apply h.transit

theorem Fitted.append_of_spare (hfits : ¬t.Fits buf) (hlen : buf.length ≤ maxMessage)
    {spare : List α} {rest : List (List α)} (hspare : t.preBuf = rest ++ [spare])
    : Fitted (t.apendMessage buf) := by
  have hsize : spare.length = bufSize := h.spare spare (by simp [hspare])
  have hsmall : 0 + buf.length ≤ bufSize := by
    rw [bufSize_eq]
    unfold maxMessage at hlen
    omega
  rw [apendMessage_of_spare hfits hspare]
  constructor
  . rw [← hsize]
    apply length_memcpy
    rw [hsize]
    apply hsmall
  . apply hsmall
  . intro buf hbuf
    apply h.spare buf
    rw [hspare]
    apply List.mem_append_left _ hbuf
  . intro block hblock
    rcases List.mem_append.mp hblock with hblock | hblock
    . apply h.ready block hblock
    . rw [List.mem_singleton] at hblock
      rw [hblock]
      apply h.current
  . apply h.swapped
  . apply h.transit

theorem Fitted.append_of_overflow (hfits : ¬t.Fits buf) (hlen : buf.length ≤ maxMessage)
    (hspare : t.preBuf = []) : Fitted (t.apendMessage buf) := by
  have hsmall : sizeofPointer + buf.length ≤ bufSize := by
    rw [bufSize_eq]
    unfold maxMessage at hlen
    unfold sizeofPointer
    omega
  have hinner : (memcpy t.currentBuf 0 overFlowMes).length = bufSize := by
    rw [← h.current]
    apply length_memcpy
    rw [h.current, length_overFlowMes]
    decide
  rw [apendMessage_of_overflow hfits hspare]
  constructor
  . rw [← hinner]
    apply length_memcpy
    rw [hinner]
    apply hsmall
  . apply hsmall
  . apply h.spare
  . apply h.ready
  . apply h.swapped
  . apply h.transit

end

/--
Everything that an append can do to the places.
-/
inductive Appended (t t' : LogThread α) (buf : List α) : Prop where
  | fits (h : t.Fits buf) (stored : t'.stored = t.stored) (filled : t'.filled = t.filled ++ buf)
  | spare (h : ¬t.Fits buf) (spare : t.preBuf ≠ []) (stored : t'.stored = t.stored ++ [t.filled])
    (filled : t'.filled = buf)
  | overflow (h : ¬t.Fits buf) (spare : t.preBuf = []) (stored : t'.stored = t.stored)
    (filled : t'.filled = overFlowMes.take sizeofPointer ++ buf)

theorem Fitted.append (h : Fitted t) (hlen : buf.length ≤ maxMessage)
    : Fitted (t.apendMessage buf) ∧ Appended t (t.apendMessage buf) buf := by
  by_cases hfits : t.Fits buf
  . refine ⟨h.append_of_fits hfits, .fits hfits ?_ ?_⟩
    . rw [apendMessage_of_fits hfits]
      rfl
    . rw [apendMessage_of_fits hfits]
      apply take_memcpy
      rw [h.current]
      apply h.index
  . rcases List.eq_nil_or_concat t.preBuf with hspare | ⟨rest, spare, hspare⟩
    . refine ⟨h.append_of_overflow hfits hlen hspare, .overflow hfits hspare ?_ ?_⟩
      . rw [apendMessage_of_overflow hfits hspare]
        rfl
      . rw [apendMessage_of_overflow hfits hspare]
        rw [← take_memcpy_overFlowMes t.currentBuf]
        apply take_memcpy
        rw [length_memcpy]
        . rw [h.current]
          decide
        . rw [h.current, length_overFlowMes]
          decide
    . rw [List.concat_eq_append] at hspare
      refine ⟨h.append_of_spare hfits hlen hspare, .spare hfits ?_ ?_ ?_⟩
      . simp [hspare]
      . rw [apendMessage_of_spare hfits hspare]
        simp [stored, inTransit, LogBlock.contents, filled]
      . rw [apendMessage_of_spare hfits hspare]
        apply take_memcpy (Nat.zero_le _)

/-! ### Steps -/

theorem step_append (h : t.step (.append buf) = some t')
    : buf.length ≤ maxMessage ∧ t' = t.apendMessage buf := by
  simp only [step] at h
  split at h
  . exact ⟨by assumption, (Option.some.inj h).symm⟩
  . cases h

theorem step_swap (h : t.step .swap = some t')
    : t.readyBuf ≠ [] ∧ t.bufToWrite = [] ∧ t.temp = none ∧
      t' = { t with bufToWrite := t.readyBuf, readyBuf := [] } := by
  simp only [step] at h
  split at h
  . rename_i hswap
    exact ⟨hswap.1, hswap.2.1, hswap.2.2, (Option.some.inj h).symm⟩
  . cases h

theorem step_take (h : t.step .take = some t')
    : ∃ block rest, t.temp = none ∧ t.bufToWrite = rest ++ [block] ∧
        t' = { t with bufToWrite := rest, temp := some (block, false) } := by
  simp only [step] at h
  split at h
  . rename_i block htemp hlast
    rcases List.getLast?_eq_some_iff.mp hlast with ⟨rest, hrest⟩
    have hinit : t.bufToWrite.dropLast = rest := by simp [hrest]
    rw [hinit] at h
    exact ⟨block, rest, htemp, hrest, (Option.some.inj h).symm⟩
  . cases h

theorem step_write (h : t.step .write = some t')
    : ∃ block, t.temp = some (block, false) ∧
        t' = { t with file := t.file ++ block.contents, temp := some (block, true) } := by
  simp only [step] at h
  split at h
  . exact ⟨_, by assumption, (Option.some.inj h).symm⟩
  . cases h

theorem step_recycle (h : t.step .recycle = some t')
    : ∃ block, t.temp = some (block, true) ∧ t' = { t.push block.buf with temp := none } := by
  simp only [step] at h
  split at h
  . exact ⟨_, by assumption, (Option.some.inj h).symm⟩
  . cases h

omit [LogChar α] in
theorem push_eq (t : LogThread α) (buf : List α)
    : ∃ preBuf, t.push buf = { t with preBuf := preBuf } ∧
        ∀ b ∈ preBuf, b ∈ t.preBuf ∨ b = buf := by
  unfold push
  split
  . exact ⟨t.preBuf, rfl, fun b hb => Or.inl hb⟩
  . refine ⟨t.preBuf ++ [buf], rfl, ?_⟩
    intro b hb
    simpa using hb

theorem fitted_init : Fitted (init : LogThread α) := by
  have hempty : (emptyBuf : List α).length = bufSize := List.length_replicate
  constructor
  . apply hempty
  . apply Nat.zero_le
  . intro buf hbuf
    rw [List.eq_of_mem_replicate hbuf]
    apply hempty
  . intro block hblock
    cases hblock
  . intro block hblock
    cases hblock
  . intro temp htemp
    cases htemp

theorem Fitted.step {e : Event α} (h : Fitted t) (hstep : t.step e = some t') : Fitted t' := by
  cases e with
  | append buf =>
    rcases step_append hstep with ⟨hlen, rfl⟩
    apply (h.append hlen).1
  | swap =>
    rcases step_swap hstep with ⟨_, _, _, rfl⟩
    refine ⟨h.current, h.index, h.spare, ?_, h.ready, h.transit⟩
    intro block hblock
    cases hblock
  | take =>
    rcases step_take hstep with ⟨block, rest, _, hlast, rfl⟩
    refine ⟨h.current, h.index, h.spare, h.ready, ?_, ?_⟩
    . intro b hb
      apply h.swapped b
      rw [hlast]
      apply List.mem_append_left _ hb
    . intro temp htemp
      cases htemp
      apply h.swapped block
      rw [hlast]
      apply List.mem_append_right _ List.mem_cons_self
  | write =>
    rcases step_write hstep with ⟨block, htemp, rfl⟩
    refine ⟨h.current, h.index, h.spare, h.ready, h.swapped, ?_⟩
    intro temp htemp'
    cases htemp'
    apply h.transit _ htemp
  | recycle =>
    rcases step_recycle hstep with ⟨block, htemp, rfl⟩
    rcases t.push_eq block.buf with ⟨preBuf, hpush, hmem⟩
    rw [hpush]
    refine ⟨h.current, h.index, ?_, h.ready, h.swapped, ?_⟩
    . intro buf hbuf
      rcases hmem buf hbuf with hbuf | rfl
      . apply h.spare buf hbuf
      . apply h.transit _ htemp
    . intro temp htemp
      cases htemp

theorem places_swap (h : t.step .swap = some t') : t'.places = t.places := by
  rcases step_swap h with ⟨_, hswapped, htemp, rfl⟩
  simp [places, stored, filled, inTransit, hswapped, htemp]

theorem places_take (h : t.step .take = some t') : t'.places = t.places := by
  rcases step_take h with ⟨block, rest, htemp, hlast, rfl⟩
  simp [places, stored, filled, inTransit, htemp, hlast]

theorem places_write (h : t.step .write = some t')
    : ∃ message rest,
        t.places = t.file :: (t.bufToWrite.map LogBlock.contents ++ message :: rest) ∧
        t'.places = (t.file ++ message) :: (t.bufToWrite.map LogBlock.contents ++ rest) := by
  rcases step_write h with ⟨block, htemp, rfl⟩
  refine ⟨block.contents, t.readyBuf.map LogBlock.contents ++ [t.filled], ?_, ?_⟩
  . simp [places, stored, inTransit, htemp]
  . simp [places, stored, inTransit, filled]

theorem places_recycle (h : t.step .recycle = some t') : t'.places = t.places := by
  rcases step_recycle h with ⟨block, htemp, rfl⟩
  rcases t.push_eq block.buf with ⟨preBuf, hpush, _⟩
  rw [hpush]
  simp [places, stored, filled, inTransit, htemp]

/-! ### Runs -/

def Step (t : LogThread α) (e : Event α) (t' : LogThread α) : Prop := t.step e = some t'

def Event.message? : Event α → Option (List α)
  | append buf => some buf
  | _ => none

def messages (es : List (Event α)) : List (List α) := es.filterMap Event.message?

-- an append that needs a new buffer finds a spare one
def SpareLeft (t : LogThread α) : Event α → Prop
  | .append buf => t.freeSize < buf.length → t.preBuf ≠ []
  | _ => True

omit [LogChar α] in
theorem messages_concat (es : List (Event α)) (e : Event α)
    : messages (es ++ [e]) = messages es ++ e.message?.toList := by
  cases e <;> simp [messages, Event.message?]

theorem step_append_of_le (h : buf.length ≤ maxMessage)
    : Step t (.append buf) (t.apendMessage buf) := by
  simp [Step, step, h]

/-! ### A full pool -/

-- `n` messages of the largest size are in the current buffer
omit [LogChar α] in
theorem fits_iff_lt {n : Nat} (hindex : t.currentBufIndex = n * maxMessage)
    (hlen : buf.length = maxMessage) : t.Fits buf ↔ n < 10 := by
  unfold Fits
  rw [hindex]
  rw [hlen]
  rw [bufSize_eq]
  unfold maxMessage
  omega

theorem index_apendMessage {n : Nat} (hindex : t.currentBufIndex = n * maxMessage)
    (hlen : buf.length = maxMessage) (hn : n < 10)
    : (t.apendMessage buf).currentBufIndex = (n + 1) * maxMessage := by
  rw [apendMessage_of_fits ((fits_iff_lt hindex hlen).mpr hn)]
  simp only
  rw [hindex]
  rw [hlen]
  rw [Nat.succ_mul]

-- and the blocks behind it are full
structure Filling (t : LogThread α) (n : Nat) : Prop where
  fitted : Fitted t
  index : t.currentBufIndex = n * maxMessage
  ready : ∀ block ∈ t.readyBuf, block.size = bufSize
  le : n ≤ 10

-- `m` messages more fill the pool
structure Room (t : LogThread α) (n m : Nat) : Prop extends Filling t n where
  room : t.preBuf.length * 10 + 10 = m + n
  blocks : t.preBuf.length + t.readyBuf.length = bufNum - 1

-- the log thread has done nothing meanwhile
structure Idle (t t' : LogThread α) : Prop where
  bufToWrite : t'.bufToWrite = t.bufToWrite
  temp : t'.temp = t.temp
  file : t'.file = t.file

theorem room_init : Room (init : LogThread α) 0 50 where
  fitted := fitted_init
  index := (Nat.zero_mul maxMessage).symm
  ready := nofun
  le := Nat.zero_le _
  room := rfl
  blocks := rfl

theorem Room.append {n m : Nat} (h : Room t n (m + 1)) (hlen : buf.length = maxMessage)
    : SpareLeft t (.append buf) ∧ Idle t (t.apendMessage buf) ∧
        ∃ n', Room (t.apendMessage buf) n' m := by
  have hroom := h.room
  have hblocks := h.blocks
  have hle := h.le
  have hfitted := (h.fitted.append (Nat.le_of_eq hlen)).1
  by_cases hn : n < 10
  . have hfits : t.Fits buf := (fits_iff_lt h.index hlen).mpr hn
    have hindex := index_apendMessage h.index hlen hn
    have heq := apendMessage_of_fits hfits
    refine ⟨fun hlt => absurd hfits ((t.freeSize_lt_iff buf).mp hlt), ?_, n + 1, ?_⟩
    . rw [heq]
      exact ⟨rfl, rfl, rfl⟩
    . refine ⟨⟨hfitted, hindex, ?_, by omega⟩, ?_, ?_⟩ <;> rw [heq]
      . exact h.ready
      . simp only
        omega
      . exact hblocks
  . have hfits : ¬t.Fits buf := (fits_iff_lt h.index hlen).not.mpr hn
    rcases List.eq_nil_or_concat t.preBuf with hnil | ⟨rest, spare, hspare⟩
    . rw [hnil, List.length_nil] at hroom
      omega
    . rw [List.concat_eq_append] at hspare
      have heq := apendMessage_of_spare hfits hspare
      rw [hspare, List.length_append, List.length_singleton] at hroom hblocks
      refine ⟨fun _ => by simp [hspare], ?_, 1, ?_⟩
      . rw [heq]
        exact ⟨rfl, rfl, rfl⟩
      . refine ⟨⟨hfitted, ?_, ?_, by omega⟩, ?_, ?_⟩ <;> rw [heq]
        . simp [hlen]
        . intro block hblock
          rcases List.mem_append.mp hblock with hold | hnew
          . exact h.ready block hold
          . rw [List.mem_singleton.mp hnew]
            have hten : n = 10 := by omega
            simp only [h.index, hten]
            rfl
        . simp only
          omega
        . simp only [List.length_append, List.length_singleton]
          omega

/--
Messages of the largest size can be appended until the log thread has to swap.
-/
theorem Room.fills {n m : Nat} (h : Room t n m) (hlen : buf.length = maxMessage)
    : ∃ t', Run Step SpareLeft t (List.replicate m (.append buf)) t' ∧ Idle t t' ∧ Room t' 10 0 := by
  induction m generalizing t n with
  | zero =>
    have hroom := h.room
    have hle := h.le
    have hten : n = 10 := by omega
    subst hten
    exact ⟨t, .nil, ⟨rfl, rfl, rfl⟩, h⟩
  | succ m ih =>
    rcases h.append hlen with ⟨hspare, hidle, n', hnext⟩
    rcases ih hnext with ⟨t', hrun, hidle', hfull⟩
    refine ⟨t', .cons hspare (step_append_of_le (Nat.le_of_eq hlen)) hrun, ?_, hfull⟩
    exact ⟨hidle'.bufToWrite.trans hidle.bufToWrite, hidle'.temp.trans hidle.temp,
      hidle'.file.trans hidle.file⟩

omit [LogChar α] in
theorem Room.full {n : Nat} (h : Room t n 0) : t.preBuf = [] ∧ t.readyBuf.length = bufNum - 1 := by
  have hroom := h.room
  have hblocks := h.blocks
  have hle := h.le
  exact ⟨List.eq_nil_of_length_eq_zero (by omega), by omega⟩

-- the last block that is ready goes to the file first
theorem writes_last {block : LogBlock α} {rest : List (LogBlock α)}
    (hready : t.readyBuf = rest ++ [block]) (hwrite : t.bufToWrite = []) (htemp : t.temp = none)
    : ∃ t', Run Step SpareLeft t [.swap, .take, .write, .recycle] t' ∧
        t'.file = t.file ++ block.contents ∧ t'.bufToWrite = rest := by
  let swapped : LogThread α := { t with bufToWrite := rest ++ [block], readyBuf := [] }
  let taken : LogThread α := { swapped with bufToWrite := rest, temp := some (block, false) }
  let written : LogThread α :=
    { taken with file := t.file ++ block.contents, temp := some (block, true) }
  rcases written.push_eq block.buf with ⟨preBuf, hpush, _⟩
  have hswap : Step t .swap swapped := by
    simp [Step, step, hready, hwrite, htemp, swapped]
  have htake : Step swapped .take taken := by
    simp [Step, step, swapped, taken, htemp]
  have hwritten : Step taken .write written := rfl
  have hrecycle : Step written .recycle { written with preBuf, temp := none } := by
    simp only [Step, step, written]
    rw [hpush]
  have hrun : Run Step SpareLeft t [.swap, .take, .write, .recycle] _ :=
    .cons trivial hswap
      (.cons trivial htake (.cons trivial hwritten (.cons trivial hrecycle .nil)))
  exact ⟨_, hrun, rfl, rfl⟩

/-! ### Nothing is lost -/

open Layout (Laid)

theorem laid_step {ms : List (List α)} {e : Event α} (hfitted : Fitted t) (hspare : SpareLeft t e)
    (hstep : Step t e t') (h : Laid t.places ms) : Laid t'.places (ms ++ e.message?.toList) := by
  cases e with
  | append buf =>
    rcases step_append hstep with ⟨hlen, rfl⟩
    cases (hfitted.append hlen).2 with
    | fits _ hstored hfilled =>
      unfold places
      rw [hstored, hfilled]
      apply h.extend
    | spare _ _ hstored hfilled =>
      unfold places
      rw [hstored, hfilled]
      apply h.add
    | overflow hfits hnone => exact absurd hnone (hspare ((t.freeSize_lt_iff buf).mpr hfits))
  | swap =>
    rw [places_swap hstep]
    simpa [Event.message?] using h
  | take =>
    rw [places_take hstep]
    simpa [Event.message?] using h
  | write =>
    rcases places_write hstep with ⟨message, rest, hplaces, hplaces'⟩
    rw [hplaces] at h
    rw [hplaces']
    simpa [Event.message?] using h.merge
  | recycle =>
    rw [places_recycle hstep]
    simpa [Event.message?] using h

/--
As long as a spare buffer is left whenever one is needed, each message is in one of the places once
and the places hold nothing else.
-/
theorem laid_of_run {es : List (Event α)} (h : Run Step SpareLeft init es t)
    : Laid t.places (messages es) := by
  have hboth : Fitted t ∧ Laid t.places (messages es) := by
    induction h with
    | nil =>
      exact ⟨fitted_init, [[], []], rfl, List.Perm.refl _⟩
    | snoc _ hspare hstep ih =>
      refine ⟨ih.1.step hstep, ?_⟩
      rw [messages_concat]
      apply laid_step ih.1 hspare hstep ih.2
  apply hboth.2

theorem laid_of_run_full
    : ∃ (es : List (Event Byte)) (t : LogThread Byte),
        t.file.length = bufSize ∧ t.bufToWrite.length = 3 ∧ Laid t.places (messages es) := by
  have hlen : (List.replicate maxMessage 97 : List Byte).length = maxMessage :=
    List.length_replicate
  rcases room_init.fills hlen with ⟨t, hrun, hidle, hroom⟩
  rcases hroom.full with ⟨_, hblocks⟩
  rcases List.eq_nil_or_concat t.readyBuf with hnil | ⟨rest, block, hready⟩
  . rw [hnil] at hblocks
    cases hblocks
  . rw [List.concat_eq_append] at hready
    rw [hready, List.length_append, List.length_singleton] at hblocks
    have hmem : block ∈ t.readyBuf := by simp [hready]
    rcases writes_last hready hidle.bufToWrite hidle.temp with ⟨t', hrun', hfile, hrest⟩
    refine ⟨_, t', ?_, ?_, laid_of_run (hrun.append hrun')⟩
    . rw [hfile]
      rw [hidle.file]
      have hsize := hroom.ready block hmem
      have hbuf := hroom.fitted.ready block hmem
      simp [init, LogBlock.contents, hsize, hbuf]
    . rw [hrest]
      exact Nat.succ.inj hblocks

end LogThread
end Fish
