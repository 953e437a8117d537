import FishRpc.Base.Lemmas.LogLoop

/-!
This module contains what an append leaves in the buffers. When the message does not fit and there is
no spare buffer, the index is set to the size of the pointer to the notice instead of the length of
the notice, so that the message is copied over the notice behind its first eight bytes.
-/

namespace Fish
namespace LogLoop

open LogThread (Fitted Fits overFlowMes sizeofPointer bufSize maxMessage length_overFlowMes)

variable {α : Type} [LogChar α] {t t' : LogLoop α} {m : List α}

-- the characters of `overFlowMes` without the terminating zero
def notice : List α := overFlowMes.take 26

structure Appends (t : LogLoop α) (m : List α) (t' : LogLoop α) : Prop where
  fits : t.log.Fits m → t'.log.filled = t.log.filled ++ m
  spare : ¬t.log.Fits m → t.log.preBuf ≠ [] →
    t'.log.readyBuf
      =
    t.log.readyBuf ++ [{ buf := t.log.currentBuf, size := t.log.currentBufIndex }] ∧
    t'.log.filled = m
  overflow : ¬t.log.Fits m → t.log.preBuf = [] →
    t'.log.filled = notice ++ m ∧ t'.log.readyBuf = t.log.readyBuf ∧ t'.reloadMes = true

theorem readyBuf_of_spare {log : LogThread α} (hfits : ¬log.Fits m) (hspare : log.preBuf ≠ [])
    : (log.apendMessage m).readyBuf
        =
      log.readyBuf ++ [{ buf := log.currentBuf, size := log.currentBufIndex }] := by
  rcases List.eq_nil_or_concat log.preBuf with hnil | ⟨rest, spare, hconcat⟩
  . exact absurd hnil hspare
  . rw [List.concat_eq_append] at hconcat
    rw [LogThread.apendMessage_of_spare hfits hconcat]

theorem overflow_ne_notice : (overFlowMes.take sizeofPointer ++ m : List α) ≠ notice ++ m := by
  intro heq
  have hlen := congrArg List.length heq
  simp only [notice, List.length_append, List.length_take, length_overFlowMes, sizeofPointer] at hlen
  omega

theorem not_appends_of_overflow (h : Fitted t.log) (hlen : m.length ≤ maxMessage)
    (heq : t.apendMessage m = .ok t') (hfits : ¬t.log.Fits m) (hspare : t.log.preBuf = [])
    : ¬Appends t m t' := by
  rw [apendMessage_eq h hlen] at heq
  cases heq
  intro happends
  have hnotice := (happends.overflow hfits hspare).1
  cases (h.append hlen).2 with
  | fits hfit => exact hfits hfit
  | spare _ hnone => exact hnone hspare
  | overflow _ _ _ hfilled =>
    simp only [hfilled] at hnotice
    exact overflow_ne_notice hnotice

/--
An append leaves what it is to leave exactly when the message fits or there is a spare buffer.
-/
theorem appends_iff (h : Fitted t.log) (hlen : m.length ≤ maxMessage)
    : ∃ t',
        t.apendMessage m = .ok t' ∧
        (Appends t m t' ↔ t.log.Fits m ∨ t.log.preBuf ≠ []) := by
  refine ⟨_, apendMessage_eq h hlen, ?_⟩
  cases (h.append hlen).2 with
  | fits hfits hstored hfilled =>
    refine iff_of_true ⟨fun _ => hfilled, ?_, ?_⟩ (Or.inl hfits)
    . intro hnot
      exact absurd hfits hnot
    . intro hnot
      exact absurd hfits hnot
  | spare hfits hspare hstored hfilled =>
    refine iff_of_true ⟨?_, ?_, ?_⟩ (Or.inr hspare)
    . intro hnot
      exact absurd hnot hfits
    . intro _ _
      exact ⟨readyBuf_of_spare hfits hspare, hfilled⟩
    . intro _ hnone
      exact absurd hnone hspare
  | overflow hfits hspare hstored hfilled =>
    refine iff_of_false ?_ ?_
    . exact not_appends_of_overflow h hlen (apendMessage_eq h hlen) hfits hspare
    . rintro (hnot | hnot)
      . exact hfits hnot
      . exact hnot hspare

theorem appends_iff_init
    : ∃ t', (init : LogLoop Byte).apendMessage [104, 105] = .ok t' ∧
        Appends init [104, 105] t' := by
  have hfits : (init : LogLoop Byte).log.Fits [104, 105] := Nat.le_of_ble_eq_true rfl
  have hlen : ([104, 105] : List Byte).length ≤ maxMessage := by decide
  have hfitted : Fitted (init : LogLoop Byte).log := LogThread.fitted_init
  rcases appends_iff hfitted hlen with ⟨t', heq, hiff⟩
  exact ⟨t', heq, hiff.mpr (Or.inl hfits)⟩

/-! ### A full pool -/

/--
A byte that is appended when the pool is full does not come behind the notice.
-/
theorem not_appends_full
    : ¬∀ es (t t' : LogLoop Byte) (m : List Byte),
        Run Step Run.Always init es t → m.length ≤ maxMessage → t.apendMessage m = .ok t' →
        Appends t m t' := by
  intro hall
  have hlen : ([33] : List Byte).length ≤ maxMessage := by decide
  rcases fills with ⟨es, t, hrun, _, _, hroom⟩
  have hfitted := hroom.fitted
  have heq := apendMessage_eq hfitted hlen
  have hfits : ¬t.log.Fits [33] := by
    unfold LogThread.Fits
    rw [hroom.index]
    decide
  exact not_appends_of_overflow hfitted hlen heq hfits hroom.full.1 (hall es t _ [33] hrun hlen heq)

end LogLoop
end Fish
