import Mathlib.Data.List.Basic
import Mathlib.Data.List.Forall2
import Mathlib.Data.List.Infix

/-!
This module contains stream coders: values of several types are written to the end of a buffer of
symbols and read back from its front. If reading undoes writing for each single valid value, then
every interleaving of writes and reads in which the reads keep up with the writes (`KeepUp`, each
read has the type of the value it is due) behaves like a queue of values.
-/

structure Coder (ι : Type) (V : ι → Type) (β σ : Type) where
  encode : (i : ι) → V i → List β
  buffer : σ → List β
  write : (i : ι) → V i → σ → σ
  read : (i : ι) → σ → V i × σ

namespace Coder

variable {ι : Type} {V : ι → Type} {β σ : Type}

inductive Call (ι : Type) (V : ι → Type) where
  | write (i : ι) (v : V i)
  | read (i : ι)

namespace Call

def writes : List (Call ι V) → List (Sigma V)
  | [] => []
  | write i v :: calls => ⟨i, v⟩ :: writes calls
  | read _ :: calls => writes calls

def reads : List (Call ι V) → List ι
  | [] => []
  | write _ _ :: calls => reads calls
  | read i :: calls => i :: reads calls

theorem writes_prefix {pre calls : List (Call ι V)} (h : pre <+: calls)
    : writes pre <+: writes calls := by
  induction pre generalizing calls with
  | nil => simp [writes]
  | cons call pre ih =>
    obtain ⟨rest, rfl⟩ := h
    have ih := ih (List.prefix_append pre rest)
    cases call with
    | write i v => simpa [writes] using ih
    | read i => simpa [writes] using ih

def KeepUp (queue : List ι) (calls : List (Call ι V)) : Prop :=
  ∀ pre, pre <+: calls → reads pre <+: queue ++ (writes pre).map Sigma.fst

instance [DecidableEq ι] (queue : List ι) (calls : List (Call ι V))
    : Decidable (KeepUp queue calls) :=
  decidable_of_iff
    (∀ pre ∈ calls.inits, reads pre <+: queue ++ (writes pre).map Sigma.fst)
    (by simp [KeepUp, List.mem_inits])

theorem KeepUp.of_prefix {queue : List ι} {pre calls : List (Call ι V)} (h : KeepUp queue calls)
    (hpre : pre <+: calls) : KeepUp queue pre :=
  fun _ hp => h _ (hp.trans hpre)

theorem KeepUp.tail_write {queue : List ι} {i : ι} {v : V i} {calls : List (Call ι V)}
    (h : KeepUp queue (write i v :: calls)) : KeepUp (queue ++ [i]) calls := by
  intro pre hpre
  have := h (write i v :: pre) (by simpa using hpre)
  simpa [reads, writes] using this

theorem KeepUp.head_read {queue : List ι} {i : ι} {calls : List (Call ι V)}
    (h : KeepUp queue (read i :: calls)) : ∃ rest, queue = i :: rest := by
  have := h [read i] (by simp)
  cases queue with
  | nil => simp [reads, writes] at this
  | cons j rest =>
    simp only [reads, writes, List.map_nil, List.append_nil, List.cons_prefix_cons] at this
    exact ⟨rest, by rw [this.1]⟩

theorem KeepUp.tail_read {rest : List ι} {i : ι} {calls : List (Call ι V)}
    (h : KeepUp (i :: rest) (read i :: calls)) : KeepUp rest calls := by
  intro pre hpre
  have := h (read i :: pre) (by simpa using hpre)
  simpa [reads, writes] using this

end Call

def run (c : Coder ι V β σ) (s : σ) : List (Call ι V) → σ × List (Sigma V)
  | [] => (s, [])
  | .write i v :: calls => c.run (c.write i v s) calls
  | .read i :: calls =>
    let (v, s) := c.read i s
    let (s, outputs) := c.run s calls
    (s, ⟨i, v⟩ :: outputs)

def encodeAll (c : Coder ι V β σ) (vs : List (Sigma V)) : List β :=
  vs.flatMap fun v => c.encode v.1 v.2

inductive Agree (same : (i : ι) → V i → V i → Prop) : Sigma V → Sigma V → Prop where
  | intro {i : ι} {v w : V i} (h : same i v w) : Agree same ⟨i, v⟩ ⟨i, w⟩

structure Lawful (c : Coder ι V β σ) (valid : (i : ι) → V i → Prop)
    (same : (i : ι) → V i → V i → Prop) : Prop where
  buffer_write : ∀ (i : ι) (v : V i) (s : σ), c.buffer (c.write i v s) = c.buffer s ++ c.encode i v
  read_encode : ∀ (i : ι) (v : V i) (s : σ) (rest : List β), valid i v →
    c.buffer s = c.encode i v ++ rest →
      same i v (c.read i s).1 ∧ c.buffer (c.read i s).2 = rest

variable {c : Coder ι V β σ} {valid : (i : ι) → V i → Prop} {same : (i : ι) → V i → V i → Prop}

theorem Lawful.run_pending (h : c.Lawful valid same) (s : σ) (pending : List (Sigma V))
    (calls : List (Call ι V)) (hbuf : c.buffer s = c.encodeAll pending)
    (hpending : ∀ v ∈ pending, valid v.1 v.2) (hwrites : ∀ v ∈ Call.writes calls, valid v.1 v.2)
    (hkeep : Call.KeepUp (pending.map Sigma.fst) calls)
    : List.Forall₂ (Agree same)
        ((pending ++ Call.writes calls).take (Call.reads calls).length) (c.run s calls).2
        ∧
      c.buffer (c.run s calls).1
        =
      c.encodeAll ((pending ++ Call.writes calls).drop (Call.reads calls).length) := by
  induction calls generalizing s pending with
  | nil => simp [run, Call.reads, Call.writes, hbuf]
  | cons call calls ih =>
    cases call with
    | write i v =>
      have hbuf' : c.buffer (c.write i v s) = c.encodeAll (pending ++ [⟨i, v⟩]) := by
        rw [h.buffer_write, hbuf]
        simp [encodeAll]
      have := ih (c.write i v s) (pending ++ [⟨i, v⟩]) hbuf'
        (by
          intro w hw
          rcases List.mem_append.mp hw with hw | hw
          . apply hpending w hw
          . apply hwrites
            simp only [List.mem_singleton] at hw
            simp [Call.writes, hw])
        (fun w hw => hwrites w (by simp [Call.writes, hw]))
        (by simpa using hkeep.tail_write)
      simpa [run, Call.reads, Call.writes] using this
    | read i =>
      obtain ⟨rest, hrest⟩ := hkeep.head_read
      cases pending with
      | nil => simp at hrest
      | cons first pending =>
        obtain ⟨j, v⟩ := first
        simp only [List.map_cons, List.cons.injEq] at hrest
        obtain ⟨rfl, -⟩ := hrest
        have hread := h.read_encode j v s (c.encodeAll pending) (hpending ⟨j, v⟩ (by simp))
          (by simpa [encodeAll] using hbuf)
        have := ih (c.read j s).2 pending hread.2
          (fun w hw => hpending w (List.mem_cons_of_mem _ hw))
          (fun w hw => hwrites w (by simpa [Call.writes] using hw))
          (by simpa using hkeep.tail_read)
        simp only [run, Call.reads, Call.writes, List.length_cons, List.cons_append,
          List.take_succ_cons, List.drop_succ_cons, List.forall₂_cons]
        exact ⟨⟨Agree.intro hread.1, this.1⟩, this.2⟩

theorem Lawful.run_interleaving (h : c.Lawful valid same) (s : σ) (calls : List (Call ι V))
    (hempty : c.buffer s = []) (hwrites : ∀ v ∈ Call.writes calls, valid v.1 v.2)
    (hkeep : Call.KeepUp [] calls)
    : List.Forall₂ (Agree same)
        ((Call.writes calls).take (Call.reads calls).length) (c.run s calls).2
        ∧
      c.buffer (c.run s calls).1
        =
      c.encodeAll ((Call.writes calls).drop (Call.reads calls).length) := by
  have := h.run_pending s [] calls (by simp [hempty, encodeAll]) (by simp) hwrites hkeep
  simpa using this

/--
What has been read agrees with what was written first, the buffer holds the rest.
-/
structure Carries (c : Coder ι V β σ) (valid : (i : ι) → V i → Prop)
    (same : (i : ι) → V i → V i → Prop) (s : σ) (written read : List (Sigma V)) : Prop where
  agree : List.Forall₂ (Agree same) (written.take read.length) read
  buffer : c.buffer s = c.encodeAll (written.drop read.length)
  valid : ∀ v ∈ written.drop read.length, valid v.1 v.2

theorem Carries.init {s : σ} (hempty : c.buffer s = []) : Carries c valid same s [] [] where
  agree := List.Forall₂.nil
  buffer := hempty
  valid v hv := by cases hv

theorem Carries.length_le {s : σ} {written read : List (Sigma V)}
    (h : Carries c valid same s written read) : read.length ≤ written.length := by
  have hlength := h.agree.length_eq
  rw [List.length_take] at hlength
  omega

theorem Carries.write {s s' : σ} {written read : List (Sigma V)} {i : ι} {v : V i}
    (h : Carries c valid same s written read) (hv : valid i v)
    (hbuf : c.buffer s' = c.buffer s ++ c.encode i v)
    : Carries c valid same s' (written ++ [⟨i, v⟩]) read := by
  have hdrop (l : List (Sigma V)) : (written ++ l).drop read.length = written.drop read.length ++ l :=
    List.drop_append_of_le_length h.length_le
  constructor
  . rw [List.take_append_of_le_length h.length_le]
    exact h.agree
  . rw [hbuf, h.buffer, hdrop]
    simp [encodeAll]
  . intro w hw
    rw [hdrop] at hw
    rcases List.mem_append.mp hw with hw | hw
    . apply h.valid w hw
    . rcases List.mem_singleton.mp hw with rfl
      exact hv

theorem Carries.read {s : σ} {written read : List (Sigma V)} {i : ι} {v : V i}
    (h : Carries c valid same s written read) (hc : c.Lawful valid same)
    (hdue : (written.drop read.length).head? = some ⟨i, v⟩)
    : same i v (c.read i s).1 ∧
      Carries c valid same (c.read i s).2 written (read ++ [⟨i, (c.read i s).1⟩]) := by
  rcases List.head?_eq_some_iff.mp hdue with ⟨rest, hrest⟩
  have hvalid : valid i v := h.valid ⟨i, v⟩ (by rw [hrest]; exact List.mem_cons_self)
  have hbuf : c.buffer s = c.encode i v ++ c.encodeAll rest := by
    rw [h.buffer, hrest]
    simp [encodeAll]
  have hread := hc.read_encode i v s (c.encodeAll rest) hvalid hbuf
  have hdrop : written.drop (read.length + 1) = rest := by
    rw [← List.drop_drop, hrest]
    rfl
  have htake : written.take (read.length + 1) = written.take read.length ++ [⟨i, v⟩] := by
    rw [List.take_add, hrest]
    rfl
  refine ⟨hread.1, ?_, ?_, ?_⟩
  . rw [List.length_append, List.length_singleton, htake]
    apply List.rel_append h.agree (List.Forall₂.cons (Agree.intro hread.1) List.Forall₂.nil)
  . rw [List.length_append, List.length_singleton, hdrop]
    exact hread.2
  . intro w hw
    rw [List.length_append, List.length_singleton, hdrop] at hw
    apply h.valid w
    rw [hrest]
    apply List.mem_cons_of_mem _ hw

end Coder
