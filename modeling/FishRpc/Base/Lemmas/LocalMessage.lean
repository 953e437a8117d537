import FishRpc.Base.Impl.LocalMessage

/-!
This module contains what the constructor of `LocalMassage` does with a file. The loop handles the
lines that end with a newline, up to the first empty one. An overlong line is cut, and nothing behind
it is read. What comes behind the last newline is dropped. A line without two characters from its
first ':' on makes an iterator past its end.
-/

namespace Fish
namespace LocalMassage

open FileRead

variable {content line rest : List Byte} {conf : ConfMap}

-- no more than 1023 bytes of a line are stored, and nothing behind its first zero byte is seen
def text (line : List Byte) : List Byte := CString.cStr (line.take (lineSize - 1))

def Overlong (line : List Byte) : Prop := lineSize ≤ line.length

instance (line : List Byte) : Decidable (Overlong line) :=
  inferInstanceAs (Decidable (_ ≤ _))

-- the texts that the loop splits, from the pieces of the file between its newlines
def handled : List (List Byte) → List (List Byte)
  | [] => []
  | [last] => if Overlong last ∧ text last ≠ [] then [text last] else []
  | line :: lines =>
    if text line = [] then []
    else if Overlong line then [text line]
    else text line :: handled lines

def readAll (lines : List (List Byte)) (confMap : ConfMap) : Option ConfMap :=
  lines.foldlM (fun confMap mes =>
    (split mes).map fun (key, value) => Function.update confMap key (some value)) confMap

def Parse.ofOption : Option ConfMap → Parse
  | some confMap => finished confMap
  | none => pastEnd

/-! ### Reading a line -/

theorem take_of_not_overlong (h : ¬Overlong line) : line.take (lineSize - 1) = line := by
  apply List.take_of_length_le
  unfold Overlong at h
  omega

theorem readLine_line (h : newline ∉ line) (hlen : ¬Overlong line)
    : (ofContent (line ++ newline :: rest)).readLine = (text line, true, ofContent rest) := by
  unfold readLine getline ofContent text
  simp only [Bool.false_eq_true, or_self, if_false, CString.takeWhile_append_cons h,
    take_of_not_overlong hlen, List.drop_left]
  rfl

theorem readLine_last (h : newline ∉ line) (hlen : ¬Overlong line)
    : (ofContent line).readLine.2.1 = false := by
  unfold readLine getline ofContent
  simp only [Bool.false_eq_true, or_self, if_false, CString.takeWhile_eq_self h,
    take_of_not_overlong hlen, List.drop_length]
  rfl

theorem readLine_overlong (h : newline ∉ line) (hlen : Overlong line)
    (hrest : rest = [] ∨ ∃ rest', rest = newline :: rest')
    : ∃ f,
        (ofContent (line ++ rest)).readLine = (text line, true, f) ∧ f.fail = true ∧
        f.eof = false := by
  have htake : (line ++ rest).takeWhile (fun c => c != newline) = line := by
    rcases hrest with rfl | ⟨rest', rfl⟩
    . rw [List.append_nil]
      apply CString.takeWhile_eq_self h
    . apply CString.takeWhile_append_cons h
  have hlength : (line.take (lineSize - 1)).length = lineSize - 1 := by
    rw [List.length_take]
    unfold Overlong at hlen
    omega
  have hdrop : ∃ c cs, (line ++ rest).drop (lineSize - 1) = c :: cs ∧ c ≠ newline := by
    have hlt : lineSize - 1 < line.length := by
      unfold Overlong lineSize at *
      omega
    refine ⟨line.get ⟨lineSize - 1, hlt⟩, line.drop lineSize ++ rest, ?_, ?_⟩
    . rw [List.drop_append_of_le_length (Nat.le_of_lt hlt)]
      rw [List.drop_eq_getElem_cons hlt]
      rfl
    . exact fun heq => h (heq ▸ List.getElem_mem hlt)
  rcases hdrop with ⟨c, cs, hcs, hne⟩
  unfold readLine getline ofContent
  simp only [Bool.false_eq_true, or_self, if_false, htake, hlength, hcs]
  rw [if_neg hne]
  exact ⟨_, rfl, rfl, rfl⟩

theorem readLine_failed {f : FileRead} (h : f.fail = true) (heof : f.eof = false)
    : f.readLine = ([], true, f) := by
  unfold readLine getline
  rw [if_pos (Or.inr h)]
  cases f
  cases h
  cases heof
  rfl

/-! ### The loop -/

namespace Parse

variable {f f' : FileRead} {mes : List Byte}

theorem step_of_eof (h : f.readLine.2.1 = false) : (reading f conf).step = finished conf := by
  unfold step
  simp [h]

theorem step_of_nil (h : f.readLine = ([], true, f')) : (reading f conf).step = finished conf := by
  unfold step
  simp [h]

theorem step_of_some {key value : List Byte} (h : f.readLine = (mes, true, f')) (hmes : mes ≠ [])
    (hsplit : split mes = some (key, value))
    : (reading f conf).step = reading f' (Function.update conf key (some value)) := by
  unfold step
  simp [h, hmes, hsplit]

theorem step_of_none (h : f.readLine = (mes, true, f')) (hmes : mes ≠ [])
    (hsplit : split mes = none) : (reading f conf).step = pastEnd := by
  unfold step
  simp [h, hmes, hsplit]

end Parse

theorem readAll_cons (mes : List Byte) (lines : List (List Byte)) (conf : ConfMap)
    : readAll (mes :: lines) conf
        =
      (split mes).bind fun entry =>
        readAll lines (Function.update conf entry.1 (some entry.2)) := by
  unfold readAll
  rw [List.foldlM_cons]
  cases split mes <;> rfl

theorem steps_overlong (h : newline ∉ line) (hlen : Overlong line)
    (hrest : rest = [] ∨ ∃ rest', rest = newline :: rest') (conf : ConfMap)
    : (Parse.reading (ofContent (line ++ rest)) conf).step.step
        =
      .ofOption (readAll (if text line = [] then [] else [text line]) conf) := by
  rcases readLine_overlong h hlen hrest with ⟨f, hread, hfail, heof⟩
  by_cases htext : text line = []
  . rw [htext] at hread
    rw [if_pos htext, Parse.step_of_nil hread]
    rfl
  . rw [if_neg htext, readAll_cons]
    cases hsplit : split (text line) with
    | none =>
      rw [Parse.step_of_none hread htext hsplit]
      rfl
    | some entry =>
      rw [Parse.step_of_some hread htext hsplit]
      rw [Parse.step_of_nil (readLine_failed hfail heof)]
      rfl

theorem steps_last (h : newline ∉ line) (conf : ConfMap)
    : ∃ n,
        (Parse.reading (ofContent line) conf).steps n = .ofOption (readAll (handled [line]) conf) := by
  unfold handled
  by_cases hlong : Overlong line
  . refine ⟨2, ?_⟩
    have hsteps := steps_overlong h hlong (Or.inl rfl) conf
    rw [List.append_nil] at hsteps
    by_cases htext : text line = []
    . rw [if_pos htext] at hsteps
      rw [if_neg fun h => h.2 htext]
      exact hsteps
    . rw [if_neg htext] at hsteps
      rw [if_pos ⟨hlong, htext⟩]
      exact hsteps
  . refine ⟨1, ?_⟩
    rw [if_neg fun h => hlong h.1]
    exact Parse.step_of_eof (readLine_last h hlong)

-- `hrest` is what the loop does with the lines behind this one
theorem steps_line {line' : List Byte} {lines : List (List Byte)} (h : newline ∉ line)
    (hrest : ∀ conf, ∃ n,
      (Parse.reading (ofContent rest) conf).steps n
        =
      .ofOption (readAll (handled (line' :: lines)) conf))
    (conf : ConfMap)
    : ∃ n,
        (Parse.reading (ofContent (line ++ newline :: rest)) conf).steps n
          =
        .ofOption (readAll (handled (line :: line' :: lines)) conf) := by
  unfold handled
  by_cases hlong : Overlong line
  . refine ⟨2, ?_⟩
    rw [if_pos hlong]
    exact steps_overlong h hlong (Or.inr ⟨rest, rfl⟩) conf
  . have hread : (ofContent (line ++ newline :: rest)).readLine = _ := readLine_line h hlong
    by_cases htext : text line = []
    . refine ⟨1, ?_⟩
      rw [htext] at hread
      rw [if_pos htext]
      exact Parse.step_of_nil hread
    . rw [if_neg htext, if_neg hlong, readAll_cons]
      cases hsplit : split (text line) with
      | none => exact ⟨1, Parse.step_of_none hread htext hsplit⟩
      | some entry =>
        rcases hrest (Function.update conf entry.1 (some entry.2)) with ⟨n, hn⟩
        refine ⟨n + 1, ?_⟩
        unfold Parse.steps
        rw [Parse.step_of_some hread htext hsplit]
        exact hn

/--
The loop ends, and what it ends with is determined by the texts that it handles.
-/
theorem steps_reading (content : List Byte) (conf : ConfMap)
    : ∃ n,
        (Parse.reading (ofContent content) conf).steps n
          =
        .ofOption (readAll (handled (content.splitOn newline)) conf) := by
  induction hlength : content.length using Nat.strong_induction_on generalizing content conf with
  | _ length ih =>
    by_cases hmem : newline ∈ content
    . rcases List.eq_append_cons_of_mem hmem with ⟨line, rest, rfl, hline⟩
      have hlt : rest.length < length := by
        rw [← hlength, List.length_append, List.length_cons]
        omega
      have hrest (conf : ConfMap) := ih rest.length hlt rest conf rfl
      rw [List.splitOn_append_cons_self_of_not_mem hline]
      rcases hlines : rest.splitOn newline with _ | ⟨line', lines⟩
      . exact absurd hlines (List.splitOn_ne_nil _ _)
      . rw [hlines] at hrest
        exact steps_line hline hrest conf
    . rw [List.splitOn_eq_singleton hmem]
      exact steps_last hmem conf

end LocalMassage
end Fish
