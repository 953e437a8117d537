import FishRpc.Base.Lemmas.LocalMessage
import Mathlib.Data.List.Induction

/-!
This module contains what a configuration file has to look like: every handled line needs a character
behind its first ':', and the last entry needs a newline behind it.
-/

namespace Fish
namespace LocalMassage

open FileRead

variable {conf : ConfMap}

/-! ### Iterators -/

def Separated (mes : List Byte) : Prop :=
  ∃ key c rest, mes = key ++ colon :: c :: rest ∧ colon ∉ key

def Parse.Ended (p : Parse) : Prop := ∀ file confMap, p ≠ reading file confMap

theorem split_of_separated {key : List Byte} (h : colon ∉ key) (c : Byte) (rest : List Byte)
    : split (key ++ colon :: c :: rest) = some (key, rest) := by
  unfold split
  simp only
  rw [CString.findIdx_append_cons h, if_pos]
  . simp [List.drop_append]
  . simp only [List.length_append, List.length_cons]
    omega

theorem split_ne_none_iff (mes : List Byte) : split mes ≠ none ↔ Separated mes := by
  constructor
  . intro h
    by_cases hmem : colon ∈ mes
    . rcases List.eq_append_cons_of_mem hmem with ⟨key, rest, rfl, hkey⟩
      cases rest with
      | nil =>
        unfold split at h
        simp [CString.findIdx_append_cons hkey] at h
      | cons c rest => exact ⟨key, c, rest, rfl, hkey⟩
    . unfold split at h
      simp [CString.findIdx_of_notMem hmem] at h
  . rintro ⟨key, c, rest, rfl, hkey⟩
    rw [split_of_separated hkey]
    simp

theorem readAll_ne_none_iff (lines : List (List Byte)) (conf : ConfMap)
    : readAll lines conf ≠ none ↔ ∀ mes ∈ lines, Separated mes := by
  induction lines generalizing conf with
  | nil =>
    refine iff_of_true ?_ (by simp)
    unfold readAll
    simp
  | cons mes lines ih =>
    rw [readAll_cons, List.forall_mem_cons, ← split_ne_none_iff]
    cases hsplit : split mes with
    | none => simp
    | some entry => simp [← ih (Function.update conf entry.1 (some entry.2))]

theorem Parse.steps_add (m n : Nat) (p : Parse) : p.steps (m + n) = (p.steps m).steps n := by
  induction m generalizing p with
  | zero => rw [Nat.zero_add, steps]
  | succ m ih =>
    rw [Nat.succ_add]
    exact ih p.step

theorem Parse.steps_of_ended {p : Parse} (h : p.Ended) (n : Nat) : p.steps n = p := by
  have hstep : p.step = p := by
    cases p with
    | reading file confMap => exact absurd rfl (h file confMap)
    | finished confMap => rfl
    | pastEnd => rfl
  induction n with
  | zero => rfl
  | succ n ih =>
    unfold steps
    rw [hstep, ih]

theorem Parse.ended_unique {p q q' : Parse} {m n : Nat} (h : p.steps m = q) (h' : p.steps n = q')
    (hq : q.Ended) (hq' : q'.Ended) : q = q' := by
  have hleft := steps_add m n p
  have hright := steps_add n m p
  rw [h, steps_of_ended hq] at hleft
  rw [h', steps_of_ended hq', Nat.add_comm, hleft] at hright
  exact hright

theorem Parse.ended_finished (conf : ConfMap) : (finished conf).Ended := nofun

theorem Parse.ended_pastEnd : pastEnd.Ended := nofun

/--
The loop always ends, and it stays within the lines exactly if each of those that it handles has a
character behind its first ':'.
-/
theorem inside_iff (content : List Byte)
    : (∃ n, ((start content).steps n).Ended) ∧
        ((∀ n, (start content).steps n ≠ .pastEnd)
          ↔
        ∀ mes ∈ handled (content.splitOn newline), Separated mes) := by
  rcases steps_reading content fun _ => none with ⟨n, hn⟩
  have hread := readAll_ne_none_iff (handled (content.splitOn newline)) fun _ => none
  cases hall : readAll (handled (content.splitOn newline)) fun _ => none with
  | none =>
    rw [hall] at hn hread
    refine ⟨⟨n, ?_⟩, iff_of_false ?_ fun h => hread.mpr h rfl⟩
    . unfold start
      rw [hn]
      exact Parse.ended_pastEnd
    . exact fun h => h n hn
  | some conf =>
    rw [hall] at hn hread
    refine ⟨⟨n, ?_⟩, iff_of_true ?_ (hread.mp (by simp))⟩
    . unfold start
      rw [hn]
      exact Parse.ended_finished conf
    . intro m hm
      have heq := Parse.ended_unique hm hn Parse.ended_pastEnd (Parse.ended_finished conf)
      cases heq

/--
A line without a ':', here "a", makes an iterator past its end.
-/
theorem not_inside_plain
    : ¬∀ content, (∃ n, ((start content).steps n).Ended) ∧
        ∀ n, (start content).steps n ≠ .pastEnd := by
  intro hall
  exact (hall [97, 10]).2 1 rfl

/-! ### Entries -/

def space : Byte := 32

def line (entry : List Byte × List Byte) : List Byte := entry.1 ++ colon :: space :: entry.2

structure WellFormed (entry : List Byte × List Byte) : Prop where
  key_ne : entry.1 ≠ []
  key : ∀ c ∈ entry.1, c ≠ colon ∧ c ≠ newline ∧ c ≠ 0
  value : ∀ c ∈ entry.2, c ≠ newline ∧ c ≠ 0
  length : (line entry).length < 1023

def render (entries : List (List Byte × List Byte)) (final : Bool) : List Byte :=
  [newline].intercalate (entries.map line) ++ if final then [newline] else []

def lastValue (key : List Byte) (entries : List (List Byte × List Byte)) : Option (List Byte) :=
  (entries.reverse.find? fun entry => entry.1 = key).map fun entry => entry.2

section

variable {entry : List Byte × List Byte} (h : WellFormed entry)

include h

theorem WellFormed.mem_line {c : Byte} (hc : c ∈ line entry) : c ≠ newline ∧ c ≠ 0 := by
  rcases List.mem_append.mp hc with hkey | hrest
  . exact (h.key c hkey).2
  . simp only [List.mem_cons] at hrest
    rcases hrest with rfl | rfl | hvalue
    . exact ⟨by decide, by decide⟩
    . exact ⟨by decide, by decide⟩
    . exact h.value c hvalue

theorem WellFormed.newline_notMem : newline ∉ line entry := fun hc => (h.mem_line hc).1 rfl

theorem WellFormed.colon_notMem : colon ∉ entry.1 := fun hc => (h.key _ hc).1 rfl

theorem WellFormed.not_overlong : ¬Overlong (line entry) := by
  have hlen := h.length
  unfold Overlong lineSize
  omega

theorem WellFormed.text_line : text (line entry) = line entry := by
  unfold text
  rw [take_of_not_overlong h.not_overlong]
  apply CString.cStr_eq_self
  exact fun hc => (h.mem_line hc).2 rfl

theorem WellFormed.split_line : split (line entry) = some entry :=
  split_of_separated h.colon_notMem _ _

end

theorem line_ne_nil (entry : List Byte × List Byte) : line entry ≠ [] := by
  simp [line]

-- all lines but the last piece are handled
theorem handled_concat {entries : List (List Byte × List Byte)} {last : List Byte}
    (h : ∀ entry ∈ entries, WellFormed entry) (hlast : ¬Overlong last)
    : handled (entries.map line ++ [last]) = entries.map line := by
  induction entries with
  | nil =>
    unfold handled
    simp [hlast]
  | cons entry entries ih =>
    have hentry := h entry List.mem_cons_self
    have htail := ih fun entry hmem => h entry (List.mem_cons_of_mem _ hmem)
    rcases hrest : entries.map line ++ [last] with _ | ⟨line', lines⟩
    . simp at hrest
    . rw [hrest] at htail
      rw [List.map_cons, List.cons_append, hrest]
      unfold handled
      rw [hentry.text_line]
      rw [if_neg (line_ne_nil entry), if_neg hentry.not_overlong]
      rw [htail]

theorem intercalate_concat_nil {lines : List (List Byte)} (h : lines ≠ [])
    : [newline].intercalate (lines ++ [[]]) = [newline].intercalate lines ++ [newline] := by
  induction lines with
  | nil => exact absurd rfl h
  | cons line lines ih =>
    cases lines with
    | nil => simp
    | cons line' lines =>
      rw [List.cons_append, List.cons_append, List.intercalate_cons_cons, ← List.cons_append]
      rw [ih (by simp), List.intercalate_cons_cons]
      simp only [List.append_assoc]

theorem handled_render {entries : List (List Byte × List Byte)}
    (h : ∀ entry ∈ entries, WellFormed entry) (final : Bool)
    : handled ((render entries final).splitOn newline)
        =
      (if final then entries else entries.dropLast).map line := by
  have hlines : ∀ l ∈ entries.map line, newline ∉ l := by
    intro l hl
    rcases List.mem_map.mp hl with ⟨entry, hentry, rfl⟩
    exact (h entry hentry).newline_notMem
  unfold render
  by_cases hnil : entries = []
  . subst hnil
    cases final <;> rfl
  . have hne : entries.map line ≠ [] := by simpa using hnil
    cases final with
    | true =>
      rw [if_pos rfl, if_pos rfl, ← intercalate_concat_nil hne]
      rw [List.splitOn_intercalate newline]
      . apply handled_concat h (by decide)
      . intro l hl
        rcases List.mem_append.mp hl with hold | hlast
        . exact hlines l hold
        . rw [List.mem_singleton.mp hlast]
          exact List.not_mem_nil
      . simp
    | false =>
      rw [if_neg (by decide), if_neg (by decide), List.append_nil]
      rw [List.splitOn_intercalate newline hlines hne]
      rcases List.eq_nil_or_concat entries with hempty | ⟨init, last, hconcat⟩
      . exact absurd hempty hnil
      . rw [List.concat_eq_append] at hconcat
        subst hconcat
        rw [List.map_append, List.map_singleton, List.dropLast_concat]
        apply handled_concat
        . exact fun entry hmem => h entry (List.mem_append_left _ hmem)
        . exact (h last (List.mem_append_right _ List.mem_cons_self)).not_overlong

theorem lastValue_concat (key : List Byte) (entries : List (List Byte × List Byte))
    (entry : List Byte × List Byte)
    : lastValue key (entries ++ [entry])
        =
      if entry.1 = key then some entry.2 else lastValue key entries := by
  unfold lastValue
  rw [List.reverse_append]
  by_cases heq : entry.1 = key
  . simp [heq]
  . simp [heq]

theorem readAll_map_line {entries : List (List Byte × List Byte)}
    (h : ∀ entry ∈ entries, WellFormed entry)
    : readAll (entries.map line) (fun _ => none) = some fun key => lastValue key entries := by
  induction entries using List.reverseRecOn with
  | nil => rfl
  | append_singleton entries entry ih =>
    have hinit := ih fun entry hmem => h entry (List.mem_append_left _ hmem)
    have hentry := h entry (List.mem_append_right _ List.mem_cons_self)
    unfold readAll at hinit ⊢
    rw [List.map_append, List.foldlM_append, hinit]
    simp only [List.map_cons, List.map_nil, List.foldlM_cons, List.foldlM_nil, hentry.split_line]
    simp only [Option.map_some, Option.bind_eq_bind, Option.bind_some, Option.pure_def,
      Option.some.injEq]
    funext key
    rw [lastValue_concat]
    by_cases heq : entry.1 = key
    . subst heq
      simp
    . simp [heq, Function.update_of_ne (Ne.symm heq)]

-- every key is read as the value of the last entry that has it
def ReadsBack (entries : List (List Byte × List Byte)) (final : Bool) : Prop :=
  ∃ n conf,
    (start (render entries final)).steps n = .finished conf ∧
    ∀ key, configRead conf key = (lastValue key entries).getD []

theorem configRead_eq (conf : ConfMap) (key : List Byte)
    : configRead conf key = (conf key).getD [] := by
  unfold configRead
  cases conf key <;> rfl

theorem readsBack_iff_read {entries : List (List Byte × List Byte)}
    (h : ∀ entry ∈ entries, WellFormed entry) (final : Bool)
    : ReadsBack entries final
        ↔
      ∀ key, (lastValue key (if final then entries else entries.dropLast)).getD []
        = (lastValue key entries).getD [] := by
  have hread : ∀ entry ∈ (if final then entries else entries.dropLast), WellFormed entry := by
    intro entry hentry
    cases final with
    | true => exact h entry hentry
    | false => exact h entry ((List.dropLast_sublist entries).subset hentry)
  rcases steps_reading (render entries final) fun _ => none with ⟨n, hn⟩
  rw [handled_render h, readAll_map_line hread] at hn
  constructor
  . rintro ⟨m, conf, hm, hconf⟩ key
    have heq := Parse.ended_unique hm hn (Parse.ended_finished _) (Parse.ended_finished _)
    cases heq
    rw [← hconf key, configRead_eq]
  . intro hall
    refine ⟨n, _, hn, ?_⟩
    intro key
    rw [configRead_eq, hall]

/--
All entries are read back exactly if the last line ends with a newline or its entry does not matter.
-/
theorem readsBack_iff {entries : List (List Byte × List Byte)}
    (h : ∀ entry ∈ entries, WellFormed entry) (final : Bool)
    : ReadsBack entries final
        ↔
      final = true ∨
        ∀ entry, entries.getLast? = some entry →
          (lastValue entry.1 entries.dropLast).getD [] = entry.2 := by
  rw [readsBack_iff_read h]
  cases final with
  | true => simp
  | false =>
    rcases List.eq_nil_or_concat entries with hempty | ⟨init, last, hconcat⟩
    . subst hempty
      simp
    . rw [List.concat_eq_append] at hconcat
      subst hconcat
      simp only [Bool.false_eq_true, if_false, false_or, List.dropLast_concat,
        List.getLast?_concat, Option.some.injEq, forall_eq']
      constructor
      . intro hall
        have hlast := hall last.1
        rw [lastValue_concat, if_pos rfl] at hlast
        exact hlast
      . intro hlast key
        rw [lastValue_concat]
        by_cases heq : last.1 = key
        . rw [if_pos heq, ← heq]
          exact hlast
        . rw [if_neg heq]

-- "a: 1"
def threads : List (List Byte × List Byte) := [([97], [49])]

theorem wellFormed_threads : ∀ entry ∈ threads, WellFormed entry := by
  intro entry hentry
  rw [List.mem_singleton.mp hentry]
  exact
    { key_ne := by decide
      key := by decide
      value := by decide
      length := by decide }

theorem readsBack_iff_threads : ReadsBack threads true :=
  (readsBack_iff wellFormed_threads true).mpr (Or.inl rfl)

/--
Without a newline at the end of the file the only entry is not read.
-/
theorem not_readsBack_threads
    : ¬∀ entries final, (∀ entry ∈ entries, WellFormed entry) → ReadsBack entries final := by
  intro hall
  have hread := (readsBack_iff_read wellFormed_threads false).mp
    (hall threads false wellFormed_threads)
  exact absurd (hread [97]) (by decide)

end LocalMassage
end Fish
