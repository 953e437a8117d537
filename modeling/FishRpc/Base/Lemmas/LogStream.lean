import FishRpc.Base.Lemmas.LogConvert
import FishRpc.Base.Lemmas.LogThread

/-!
This module contains what the insertions and the ends of lines do to the buffer of a `LogStream`. The
write index never passes `headLevel` between two of them, so that the two bytes that `writeEnd` adds
unchecked fit. At the start of a line it is below `lowLevel`, so that a line of up to
`headLevel - lowLevel + 1` bytes is not cut.
-/

namespace Fish

namespace LogBuffer

variable {b : LogBuffer}

def index (b : LogBuffer) : Nat := b.writeIndex.toNat

def content (b : LogBuffer) : List Byte := b.data.take b.index

theorem toInt_writeIndex (h : b.index ≤ bufferSize) : b.writeIndex.toInt = b.index := by
  apply BitVec.toInt_eq_toNat_of_lt
  unfold bufferSize index at h
  omega

theorem put_spec {src : List Byte} (h : b.index + src.length ≤ bufferSize)
    : ∃ b',
        b.put src = some b' ∧ b'.index = b.index + src.length ∧
        b'.content = b.content ++ src := by
  have hint : b.writeIndex.toInt = b.index := toInt_writeIndex (by omega)
  have hindex : (b.writeIndex + BitVec.ofNat 32 src.length).toNat = b.index + src.length := by
    rw [BitVec.toNat_add, BitVec.toNat_ofNat]
    unfold bufferSize index at *
    omega
  unfold put
  rw [dif_pos (by omega)]
  refine ⟨_, rfl, hindex, ?_⟩
  unfold content
  simp only [index, hindex, hint, Int.toNat_natCast]
  apply LogThread.take_memcpy
  rw [b.length_data]
  unfold index at h
  omega

-- an insertion is written as a whole or left out
inductive Written (b : LogBuffer) (line : List Byte) (b' : LogBuffer) : Prop where
  | kept (fits : b.index + line.length ≤ headLevel) (index : b'.index = b.index + line.length)
    (content : b'.content = b.content ++ line)
  | dropped (h : headLevel < b.index + line.length) (same : b' = b)

theorem writeIn_spec {line : List Byte} (h : b.index ≤ headLevel) (hline : line.length < 2 ^ 31)
    : ∃ b' flag,
        b.writeIn line (BitVec.ofNat 32 line.length) = some (b', flag) ∧ Written b line b' := by
  have hhead : headLevel = 10237 := rfl
  have hsize : (BitVec.ofNat 32 line.length).toNat = line.length := by
    rw [BitVec.toNat_ofNat]
    omega
  have hsum : (b.writeIndex + BitVec.ofNat 32 line.length).toNat = b.index + line.length := by
    rw [BitVec.toNat_add, hsize]
    unfold index at *
    omega
  have hcmp
      : b.writeIndex + BitVec.ofNat 32 line.length > BitVec.ofNat 32 headLevel
          ↔
        headLevel < b.index + line.length := by
    rw [gt_iff_lt, BitVec.lt_def, hsum]
    rfl
  unfold writeIn
  split
  . rename_i hgt
    exact ⟨b, false, rfl, .dropped (hcmp.mp hgt) rfl⟩
  . rename_i hle
    rw [hcmp] at hle
    have hfits : b.index + line.length ≤ bufferSize := by
      have hbuf : bufferSize = 10240 := rfl
      omega
    rcases put_spec hfits with ⟨b', hput, hindex, hcontent⟩
    refine ⟨b', true, ?_, .kept (by omega) hindex hcontent⟩
    rw [hsize, List.take_length, hput]
    rfl

def crlf : List Byte := [13, 10]

theorem writeEnd_spec (h : b.index ≤ headLevel)
    : ∃ b',
        b.writeEnd = some (b', decide (lowLevel ≤ b'.index)) ∧ b'.index = b.index + 2 ∧
        b'.content = b.content ++ crlf := by
  have hhead : headLevel = 10237 := rfl
  have hbuf : bufferSize = 10240 := rfl
  have hcr : b.index + ([13] : List Byte).length ≤ bufferSize := by
    rw [List.length_singleton]
    omega
  rcases put_spec hcr with ⟨b₁, hput₁, hindex₁, hcontent₁⟩
  have hlf : b₁.index + ([10] : List Byte).length ≤ bufferSize := by
    rw [hindex₁, List.length_singleton, List.length_singleton]
    omega
  rcases put_spec hlf with ⟨b₂, hput₂, hindex₂, hcontent₂⟩
  rw [List.length_singleton] at hindex₁ hindex₂
  refine ⟨b₂, ?_, by omega, ?_⟩
  . unfold writeEnd
    rw [hput₁, Option.bind_eq_bind, Option.bind_some]
    rw [hput₂, Option.bind_some]
    rw [toInt_writeIndex (by omega)]
    simp
  . rw [hcontent₂, hcontent₁, List.append_assoc]
    rfl

end LogBuffer

namespace LogStream

open LogBuffer (Written headLevel lowLevel bufferSize crlf writeIn_spec writeEnd_spec)

variable {s s' : LogStream}

/-! ### Steps -/

def Piece.bytes (piece : Piece) : List Byte := piece.text.getD []

theorem Piece.text_eq (piece : Piece) : piece.text = some piece.bytes := by
  cases piece with
  | cstr str =>
    cases str with
    | none => rfl
    | some str => rfl
  | view str => rfl
  | string str => rfl
  | integer t value =>
    simp only [bytes, text]
    rw [integer_eq]
    rfl
  | double text => rfl

-- between two steps the two bytes of `writeEnd` fit
def Safe (s : LogStream) : Prop := s.buf.index ≤ headLevel

-- all that has been written: what the callback was given and what is still in the buffer
def written (s : LogStream) : List Byte := s.handed.flatten ++ s.buf.content

theorem insert_spec {piece : Piece} (h : s.Safe) (hpiece : piece.bytes.length < 2 ^ 31)
    : ∃ s',
        s.insert piece = some s' ∧ s'.handed = s.handed ∧ Written s.buf piece.bytes s'.buf := by
  rcases writeIn_spec h hpiece with ⟨b', flag, hwrite, hwritten⟩
  refine ⟨{ s with buf := b' }, ?_, rfl, hwritten⟩
  unfold insert
  rw [piece.text_eq, Option.bind_eq_bind, Option.bind_some]
  rw [hwrite, Option.bind_eq_bind, Option.bind_some]
  rfl

theorem end_spec (h : s.Safe)
    : ∃ s',
        s.end_ = some s' ∧ s'.written = s.written ++ crlf ∧ s'.buf.index < lowLevel := by
  rcases writeEnd_spec h with ⟨b', hwrite, hindex, hcontent⟩
  have hbound : b'.index ≤ bufferSize := by
    have hhead : headLevel = 10237 := rfl
    have hbuf : bufferSize = 10240 := rfl
    unfold Safe at h
    omega
  unfold end_
  rw [hwrite, Option.bind_eq_bind, Option.bind_some]
  simp only [decide_eq_true_eq]
  split
  . refine ⟨_, rfl, ?_, Nat.le_of_ble_eq_true rfl⟩
    have hdata : b'.data.take b'.writeIndex.toInt.toNat = b'.content := by
      rw [LogBuffer.toInt_writeIndex hbound]
      rfl
    simp only [written, LogBuffer.updateMes, hdata]
    rw [List.flatten_append, hcontent]
    simp [LogBuffer.refresh, LogBuffer.content, LogBuffer.index]
  . rename_i hlow
    refine ⟨_, rfl, ?_, Nat.lt_of_not_le hlow⟩
    simp only [written]
    rw [hcontent, List.append_assoc]

/-! ### Lines -/

def Event.bytes : Event → List Byte
  | insert piece => piece.bytes
  | end_ => crlf

def text (es : List Event) : List Byte := es.flatMap Event.bytes

structure Lines where
  ended : List (List Byte)
  current : List Byte

def Lines.add (ls : Lines) : Event → Lines
  | .insert piece => { ls with current := ls.current ++ piece.bytes }
  | .end_ => { ended := ls.ended ++ [ls.current], current := [] }

-- the text of the lines without their ends, the last one is still open
def lines (es : List Event) : Lines := es.foldl Lines.add { ended := [], current := [] }

def Lines.Short (ls : Lines) : Prop :=
  ∀ line ∈ ls.ended ++ [ls.current], line.length ≤ headLevel - lowLevel + 1

theorem lines_concat (es : List Event) (e : Event) : lines (es ++ [e]) = (lines es).add e := by
  simp [lines]

theorem text_concat (es : List Event) (e : Event) : text (es ++ [e]) = text es ++ e.bytes := by
  simp [text]

theorem Lines.Short.of_add {ls : Lines} {e : Event} (h : (ls.add e).Short) : ls.Short := by
  cases e with
  | insert piece =>
    intro line hline
    rcases List.mem_append.mp hline with hline | hline
    . exact h line (List.mem_append_left _ hline)
    . have hlast := h (ls.current ++ piece.bytes) (List.mem_append_right _ List.mem_cons_self)
      rw [List.length_append] at hlast
      rw [List.mem_singleton] at hline
      rw [hline]
      omega
  | end_ =>
    intro line hline
    exact h line (List.mem_append_left _ hline)

-- nothing has been dropped, and there is room for the rest of the line
structure Kept (s : LogStream) (es : List Event) : Prop where
  written : s.written = text es
  index : s.buf.index < lowLevel + (lines es).current.length

theorem kept_insert {es : List Event} {piece : Piece} (h : Kept s es)
    (hhanded : s'.handed = s.handed) (hwritten : Written s.buf piece.bytes s'.buf)
    (hshort : (lines (es ++ [.insert piece])).Short) : Kept s' (es ++ [.insert piece]) := by
  have hindex := h.index
  have hlevels : headLevel = lowLevel + 253 := rfl
  rw [lines_concat] at hshort
  have hcurrent : ((lines es).current ++ piece.bytes).length ≤ headLevel - lowLevel + 1 :=
    hshort _ (List.mem_append_right _ List.mem_cons_self)
  rw [List.length_append] at hcurrent
  cases hwritten with
  | kept hfits hindex' hcontent =>
    constructor
    . unfold LogStream.written
      rw [hhanded, hcontent, text_concat, ← List.append_assoc]
      rw [← h.written]
      rfl
    . rw [lines_concat, hindex']
      simp only [Lines.add, List.length_append]
      omega
  | dropped hfull _ => omega

theorem kept_end {es : List Event} (h : Kept s es) (hwritten : s'.written = s.written ++ crlf)
    (hindex : s'.buf.index < lowLevel) : Kept s' (es ++ [.end_]) := by
  constructor
  . rw [hwritten, h.written, text_concat]
    rfl
  . rw [lines_concat]
    apply hindex

/--
In every sequence of insertions and ends of lines all writes are within `data_`. If the pieces of
each line are short enough in total, nothing is dropped.
-/
theorem written_of_steps (es : List Event)
    (h : ∀ piece, Event.insert piece ∈ es → piece.bytes.length < 2 ^ 31)
    : ∃ s,
        es.foldlM step init = some s ∧
        ((lines es).Short → s.handed.flatten ++ s.buf.content = text es) := by
  have hboth : ∃ s, es.foldlM step init = some s ∧ s.Safe ∧ ((lines es).Short → Kept s es) := by
    induction es using List.reverseRecOn with
    | nil =>
      refine ⟨init, rfl, Nat.zero_le _, fun _ => ⟨rfl, ?_⟩⟩
      apply Nat.le_of_ble_eq_true rfl
    | append_singleton es e ih =>
      rcases ih fun piece hpiece => h piece (List.mem_append_left _ hpiece)
        with ⟨s, hs, hsafe, hkept⟩
      rw [List.foldlM_append, hs]
      cases e with
      | insert piece =>
        have hpiece := h piece (List.mem_append_right _ List.mem_cons_self)
        rcases insert_spec hsafe hpiece with ⟨s', hs', hhanded, hwritten⟩
        refine ⟨s', by simp [step, hs'], ?_, ?_⟩
        . cases hwritten with
          | kept hfits hindex _ =>
            unfold Safe
            omega
          | dropped _ hsame =>
            unfold Safe
            rw [hsame]
            exact hsafe
        . intro hshort
          have hold : (lines es).Short := by
            rw [lines_concat] at hshort
            apply hshort.of_add
          apply kept_insert (hkept hold) hhanded hwritten hshort
      | end_ =>
        rcases end_spec hsafe with ⟨s', hs', hwritten, hindex⟩
        refine ⟨s', by simp [step, hs'], Nat.le_trans (Nat.le_of_lt hindex) (by decide), ?_⟩
        intro hshort
        rw [lines_concat] at hshort
        apply kept_end (hkept hshort.of_add) hwritten hindex
  rcases hboth with ⟨s, hs, _, hkept⟩
  exact ⟨s, hs, fun hshort => (hkept hshort).written⟩

theorem written_of_steps_line
    : ∃ s,
        [.insert (.cstr none), .insert (.integer .int ⟨-17, by decide⟩), .end_].foldlM step init
          =
        some s ∧
        s.handed.flatten ++ s.buf.content = [40, 110, 117, 108, 108, 41, 45, 49, 55, 13, 10] := by
  have hpieces : ∀ piece,
      Event.insert piece
        ∈
      [.insert (.cstr none), .insert (.integer .int ⟨-17, by decide⟩), .end_] →
      piece.bytes.length < 2 ^ 31 := by
    intro piece hpiece
    simp only [List.mem_cons, Event.insert.injEq, reduceCtorEq, List.not_mem_nil, or_false]
      at hpiece
    rcases hpiece with rfl | rfl
    . decide
    . decide
  rcases written_of_steps _ hpieces with ⟨s, hs, hwritten⟩
  refine ⟨s, hs, hwritten ?_⟩
  intro line hline
  have hmem : line ∈ ([[40, 110, 117, 108, 108, 41, 45, 49, 55], []] : List (List Byte)) := hline
  simp only [List.mem_cons, List.not_mem_nil, or_false] at hmem
  rcases hmem with rfl | rfl
  . decide
  . decide

/--
What the callback is called with is a message that `apendMessage` accepts.
-/
theorem length_handed_le {es : List Event} (h : es.foldlM step init = some s)
    : ∀ block ∈ s.handed, block.length ≤ LogThread.maxMessage := by
  induction es using List.reverseRecOn generalizing s with
  | nil =>
    cases h
    intro block hblock
    cases hblock
  | append_singleton es e ih =>
    rw [List.foldlM_append] at h
    rcases Option.bind_eq_some_iff.mp h with ⟨s', hs', hlast⟩
    have hstep : s'.step e = some s := by simpa using hlast
    cases e with
    | insert piece =>
      rcases Option.bind_eq_some_iff.mp hstep with ⟨_, _, hwrite⟩
      rcases Option.bind_eq_some_iff.mp hwrite with ⟨_, _, heq⟩
      cases heq
      apply ih hs'
    | end_ =>
      rcases Option.bind_eq_some_iff.mp hstep with ⟨⟨buf, flag⟩, _, heq⟩
      cases flag with
      | false =>
        cases heq
        apply ih hs'
      | true =>
        cases heq
        intro block hblock
        rcases List.mem_append.mp hblock with hblock | hblock
        . apply ih hs' block hblock
        . rw [List.mem_singleton.mp hblock, List.length_take]
          apply Nat.le_trans (Nat.min_le_right _ _)
          rw [buf.length_data]
          apply Nat.le_refl

end LogStream
end Fish
