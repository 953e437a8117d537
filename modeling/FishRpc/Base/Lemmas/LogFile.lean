import FishRpc.Base.Lemmas.LogFileName
import FishRpc.Lib.Run

/-!
This module contains what `writeMessage` writes when no `fwrite` fails: however the messages are
split, each of them ends up as a whole in one file, and a file is changed as soon as it is full. No
name is used for two files while the counter does not overflow.
-/

namespace Fish
namespace LogFile

variable {s s₀ s' : LogFile} {c : Call} {calls : List Call} {tm : Tm}

/-! ### A message -/

-- every `fwrite` of some bytes takes at least one and no more than there are
def Progress (c : Call) : Prop :=
  ∀ n remain,
    0 < remain →
    1 ≤ (c.fwrite n remain).1 ∧ (c.fwrite n remain).1 ≤ remain ∧ (c.fwrite n remain).2 = false

def Wrote (s : LogFile) (c : Call) (s' : LogFile) : Prop :=
  ∃ iterations, s.writeMessage iterations c = some s'

theorem writeLoop_succ (h : Progress c) {iterations n written : Nat} {content : List Byte}
    (hlt : written < c.message.length)
    : ∃ count,
        1 ≤ count ∧ written + count ≤ c.message.length ∧
        writeLoop c (iterations + 1) n written content
          =
        writeLoop c iterations (n + 1) (written + count)
          (content ++ (c.message.drop written).take count) := by
  rcases h n (c.message.length - written) (by omega) with ⟨hpos, hle, herr⟩
  refine ⟨(c.fwrite n (c.message.length - written)).1, hpos, by omega, ?_⟩
  conv_lhs => unfold writeLoop
  rw [if_neg (Nat.ne_of_lt hlt)]
  simp only [herr, Bool.false_eq_true, and_false, if_false]

theorem writeLoop_done (iterations n : Nat) (content : List Byte)
    : writeLoop c iterations n c.message.length content = some (c.message.length, content) := by
  unfold writeLoop
  rw [if_pos rfl]

theorem writeLoop_zero {n written : Nat} {content : List Byte} (hlt : written < c.message.length)
    : writeLoop c 0 n written content = none := by
  unfold writeLoop
  rw [if_neg (Nat.ne_of_lt hlt)]

/--
The loop ends, and when it does the rest of the message has been written.
-/
theorem writeLoop_spec (h : Progress c) (iterations n written : Nat) (content : List Byte)
    (hle : written ≤ c.message.length)
    : (∀ r, writeLoop c iterations n written content = some r →
        r = (c.message.length, content ++ c.message.drop written)) ∧
        (c.message.length - written ≤ iterations →
          ∃ r, writeLoop c iterations n written content = some r) := by
  rcases Nat.eq_or_lt_of_le hle with rfl | hlt
  . rw [writeLoop_done, List.drop_length, List.append_nil]
    exact ⟨fun _ hr => (Option.some.inj hr).symm, fun _ => ⟨_, rfl⟩⟩
  . induction iterations generalizing n written content with
    | zero =>
      rw [writeLoop_zero hlt]
      exact ⟨nofun, fun hiterations => absurd hiterations (by omega)⟩
    | succ iterations ih =>
      rcases writeLoop_succ h hlt with ⟨count, hpos, hcount, hloop⟩
      have hsplit : (c.message.drop written).take count ++ c.message.drop (written + count)
          = c.message.drop written := by
        rw [← List.drop_drop, List.take_append_drop]
      rw [hloop]
      rcases Nat.eq_or_lt_of_le hcount with heq | hlt'
      . rw [heq, List.drop_length, List.append_nil] at hsplit
        rw [heq, writeLoop_done, hsplit]
        exact ⟨fun _ hr => (Option.some.inj hr).symm, fun _ => ⟨_, rfl⟩⟩
      . have hnext := ih (n + 1) (written + count)
          (content ++ (c.message.drop written).take count) hcount hlt'
        rw [List.append_assoc, hsplit] at hnext
        exact ⟨hnext.1, fun hiterations => hnext.2 (by omega)⟩

theorem openFile_eq {fileCount : BitVec 32} {closed : List OpenFile}
    (h : openFile tm fileCount closed = some s)
    : s.writeBytes = 0 ∧ s.fileCount = fileCount + 1 ∧ s.file.content = [] ∧ s.closed = closed ∧
        fileName tm fileCount.toInt = some s.file.name := by
  unfold openFile at h
  rcases Option.map_eq_some_iff.mp h with ⟨name, hname, rfl⟩
  exact ⟨rfl, rfl, rfl, rfl, hname⟩

theorem openFile_isSome (tm : Tm) (fileCount : BitVec 32) (closed : List OpenFile)
    : ∃ s, openFile tm fileCount closed = some s := by
  rcases fileName_isSome tm fileCount with ⟨name, hname⟩
  unfold openFile
  rw [hname]
  exact ⟨_, rfl⟩

theorem changeFile_isSome (s : LogFile) (tm : Tm) : ∃ s', s.changeFile tm = some s' :=
  openFile_isSome tm s.fileCount _

def appended (s : LogFile) (c : Call) : LogFile :=
  { s with
    file := { s.file with content := s.file.content ++ c.message }
    writeBytes := s.writeBytes + c.message.length }

theorem writeMessage_spec (h : Progress c) (s : LogFile)
    : (∀ s', Wrote s c s' →
        if (s.appended c).writeBytes > maxSizePreFile
        then (s.appended c).changeFile c.tm = some s'
        else s' = s.appended c) ∧
        ∃ s', Wrote s c s' := by
  have hloop (iterations : Nat) :=
    writeLoop_spec h iterations 0 0 s.file.content (Nat.zero_le _)
  have hmessage {iterations : Nat} {r : Nat × List Byte}
      (hr : writeLoop c iterations 0 0 s.file.content = some r)
      : s.writeMessage iterations c
          =
        if (s.appended c).writeBytes > maxSizePreFile
        then (s.appended c).changeFile c.tm
        else some (s.appended c) := by
    have heq := (hloop iterations).1 r hr
    unfold writeMessage
    rw [hr, heq]
    rfl
  constructor
  . rintro s' ⟨iterations, hs'⟩
    have hsome : ∃ r, writeLoop c iterations 0 0 s.file.content = some r := by
      cases hr : writeLoop c iterations 0 0 s.file.content with
      | none =>
        unfold writeMessage at hs'
        rw [hr] at hs'
        cases hs'
      | some r => exact ⟨r, rfl⟩
    rcases hsome with ⟨r, hr⟩
    rw [hmessage hr] at hs'
    split
    . rename_i hfull
      rw [if_pos hfull] at hs'
      exact hs'
    . rename_i hfull
      rw [if_neg hfull] at hs'
      exact (Option.some.inj hs').symm
  . rcases (hloop c.message.length).2 (by omega) with ⟨r, hr⟩
    by_cases hfull : (s.appended c).writeBytes > maxSizePreFile
    . rcases changeFile_isSome (s.appended c) c.tm with ⟨s', hs'⟩
      refine ⟨s', c.message.length, ?_⟩
      rw [hmessage hr, if_pos hfull]
      exact hs'
    . refine ⟨s.appended c, c.message.length, ?_⟩
      rw [hmessage hr, if_neg hfull]

/-! ### The files -/

def files (s : LogFile) : List OpenFile := s.closed ++ [s.file]

-- `part` is the messages of a file, and it was not full before the last one
structure Holds (file : OpenFile) (part : List (List Byte)) : Prop where
  content : file.content = part.flatten
  before : part.dropLast.flatten.length ≤ maxSizePreFile

structure Filed (s : LogFile) (messages : List (List Byte)) : Prop where
  parts : ∃ parts part,
    parts.flatten ++ part = messages ∧ List.Forall₂ Holds s.closed parts ∧
    s.file.content = part.flatten
  writeBytes : s.writeBytes = s.file.content.length
  room : s.writeBytes ≤ maxSizePreFile

theorem filed_new (h : new tm = some s) : Filed s [] := by
  rcases openFile_eq h with ⟨hbytes, _, hcontent, hclosed, _⟩
  refine ⟨⟨[], [], rfl, ?_, hcontent⟩, ?_, ?_⟩
  . rw [hclosed]
    exact .nil
  . rw [hbytes, hcontent]
    rfl
  . rw [hbytes]
    apply Nat.zero_le

theorem Filed.wrote {messages : List (List Byte)} (hs : Filed s messages) (h : Progress c)
    (hwrote : Wrote s c s') : Filed s' (messages ++ [c.message]) := by
  rcases hs.parts with ⟨parts, part, hmessages, hclosed, hcontent⟩
  have hbytes : (s.appended c).writeBytes = (s.appended c).file.content.length := by
    simp only [appended, List.length_append]
    rw [hs.writeBytes]
  have hfile : (s.appended c).file.content = (part ++ [c.message]).flatten := by
    rw [List.flatten_append, ← hcontent]
    simp [appended]
  have hroom := hs.room
  rw [hs.writeBytes, hcontent] at hroom
  have hspec := (writeMessage_spec h s).1 s' hwrote
  split at hspec
  . rcases openFile_eq hspec with ⟨hbytes', _, hcontent', hclosed', _⟩
    refine ⟨⟨parts ++ [part ++ [c.message]], [], ?_, ?_, hcontent'⟩, ?_, ?_⟩
    . rw [← hmessages]
      simp
    . rw [hclosed']
      apply List.rel_append hclosed
      refine .cons ⟨hfile, ?_⟩ .nil
      rw [List.dropLast_concat]
      exact hroom
    . rw [hbytes', hcontent']
      rfl
    . rw [hbytes']
      apply Nat.zero_le
  . rename_i hfits
    subst hspec
    refine ⟨⟨parts, part ++ [c.message], ?_, hclosed, hfile⟩, hbytes, Nat.not_lt.mp hfits⟩
    rw [← hmessages, List.append_assoc]

theorem Holds.length_le {file : OpenFile} {part : List (List Byte)} (h : Holds file part)
    : file.content.length ≤ maxSizePreFile + (part.getLast?.getD []).length := by
  rw [h.content]
  rcases List.eq_nil_or_concat part with rfl | ⟨init, last, rfl⟩
  . apply Nat.zero_le
  . have hbefore := h.before
    rw [List.concat_eq_append, List.dropLast_concat] at hbefore
    rw [List.concat_eq_append, List.getLast?_concat, List.flatten_append]
    simp only [List.length_append, List.flatten_singleton, Option.getD_some]
    omega

theorem filed_of_run (hnew : new tm = some s₀)
    (h : Run Wrote (fun _ c => Progress c) s₀ calls s)
    : Filed s (calls.map fun c => c.message) := by
  induction h with
  | nil => exact filed_new hnew
  | snoc _ hprogress hwrote ih =>
    rw [List.map_append]
    exact ih.wrote hprogress hwrote

/--
Each call ends, the messages are in the files in their order, each as a whole in one of them, the
counter is the size of the current file, and no file is larger than the limit and its last message.
-/
theorem written_of_run (hnew : new tm = some s₀)
    (h : Run Wrote (fun _ c => Progress c) s₀ calls s)
    : (∀ c, Progress c → ∃ s', Wrote s c s') ∧
        s.writeBytes = s.file.content.length ∧
        ∃ parts : List (List (List Byte)),
          parts.flatten = calls.map (fun c => c.message) ∧
          List.Forall₂
            (fun file part =>
              file.content = part.flatten ∧
              file.content.length ≤ maxSizePreFile + (part.getLast?.getD []).length)
            s.files parts := by
  have hs := filed_of_run hnew h
  rcases hs.parts with ⟨parts, part, hmessages, hclosed, hcontent⟩
  refine ⟨fun c hc => (writeMessage_spec hc s).2, hs.writeBytes, parts ++ [part], ?_, ?_⟩
  . rw [← hmessages]
    simp
  . apply List.rel_append
    . apply hclosed.imp
      exact fun file part hholds => ⟨hholds.content, hholds.length_le⟩
    . refine .cons ⟨hcontent, ?_⟩ .nil
      have hroom := hs.room
      rw [hs.writeBytes] at hroom
      omega

-- "abc", a byte at a time
def bytewise : Call where
  message := [97, 98, 99]
  fwrite _ _ := (1, false)
  tm := { year := 124, mon := 0, mday := 1, hour := 0, min := 0 }

theorem progress_bytewise : Progress bytewise :=
  fun _ _ hremain => ⟨Nat.le_refl 1, hremain, rfl⟩

theorem written_of_run_bytewise
    : ∃ s₀ s,
        new bytewise.tm = some s₀ ∧ Run Wrote (fun _ c => Progress c) s₀ [bytewise] s ∧
        s.writeBytes = s.file.content.length := by
  rcases openFile_isSome bytewise.tm 1 [] with ⟨s₀, hs₀⟩
  rcases (writeMessage_spec progress_bytewise s₀).2 with ⟨s, hs⟩
  have hrun : Run Wrote (fun _ c => Progress c) s₀ [bytewise] s := .snoc .nil progress_bytewise hs
  exact ⟨s₀, s, hs₀, hrun, (written_of_run hs₀ hrun).2.1⟩

/-! ### The names -/

def names (s : LogFile) : List (List Byte) := s.files.map fun file => file.name

structure Numbered (s : LogFile) : Prop where
  fileCount : s.fileCount = BitVec.ofNat 32 (s.names.length + 1)
  names : ∀ i name, s.names[i]? = some name →
    ∃ tm, fileName tm (BitVec.ofNat 32 (i + 1)).toInt = some name

theorem numbered_new (h : new tm = some s) : Numbered s := by
  rcases openFile_eq h with ⟨_, hcount, _, hclosed, hname⟩
  have hnames : s.names = [s.file.name] := by
    simp [names, files, hclosed]
  refine ⟨?_, ?_⟩
  . rw [hcount, hnames]
    rfl
  . intro i name hi
    rw [hnames] at hi
    cases i with
    | zero =>
      cases hi
      exact ⟨tm, hname⟩
    | succ i => simp at hi

theorem Numbered.congr (hs : Numbered s) (hcount : s'.fileCount = s.fileCount)
    (hnames : s'.names = s.names) : Numbered s' := by
  refine ⟨?_, ?_⟩
  . rw [hcount, hnames]
    apply hs.fileCount
  . rw [hnames]
    apply hs.names

theorem Numbered.changeFile (hs : Numbered s) (h : s.changeFile tm = some s') : Numbered s' := by
  rcases openFile_eq h with ⟨_, hcount, _, hclosed, hname⟩
  have hnames : s'.names = s.names ++ [s'.file.name] := by
    simp [LogFile.names, files, hclosed]
  refine ⟨?_, ?_⟩
  . rw [hcount, hs.fileCount, hnames, List.length_append, List.length_singleton]
    rw [BitVec.ofNat_add (s.names.length + 1) 1]
    rfl
  . intro i name hi
    rw [hnames] at hi
    by_cases hlt : i < s.names.length
    . rw [List.getElem?_append_left hlt] at hi
      apply hs.names i name hi
    . rw [List.getElem?_append_right (Nat.not_lt.mp hlt)] at hi
      rcases List.getElem?_eq_some_iff.mp hi with ⟨hindex, hlast⟩
      rw [List.length_singleton] at hindex
      have hi' : i = s.names.length := by omega
      rw [List.getElem_singleton] at hlast
      refine ⟨tm, ?_⟩
      rw [hi', ← hs.fileCount, ← hlast]
      exact hname

-- whatever the C library does, a message leaves the name of the file or opens the next one
theorem Numbered.wrote (hs : Numbered s) (h : Wrote s c s') : Numbered s' := by
  rcases h with ⟨iterations, h⟩
  unfold writeMessage at h
  rcases Option.bind_eq_some_iff.mp h with ⟨⟨written, content⟩, _, h⟩
  have hkept : Numbered { s with
      file := { s.file with content }
      writeBytes := s.writeBytes + written } := by
    refine hs.congr ?_ ?_
    . rfl
    . simp [LogFile.names, files]
  simp only at h
  split at h
  . exact hkept.changeFile h
  . cases h
    exact hkept

theorem Numbered.nodup (hs : Numbered s) (h : s.names.length < 2 ^ 31) : s.names.Nodup := by
  rw [List.nodup_iff_getElem?_ne_getElem?]
  intro i j hij hj heq
  have hnat {n : Nat} (hn : n < 2 ^ 31) : (BitVec.ofNat 32 n).toInt = n := by
    rw [BitVec.toInt_eq_toNat_bmod, BitVec.toNat_ofNat, Int.bmod_def]
    split <;> omega
  have hi := List.getElem?_eq_getElem (Nat.lt_trans hij hj)
  have hj' := hi
  rw [heq] at hj'
  rcases hs.names i _ hi with ⟨tm, htm⟩
  rcases hs.names j _ hj' with ⟨tm', htm'⟩
  rw [hnat (by omega)] at htm htm'
  have hsame := fileName_inj (by omega) (by omega) htm htm'
  omega

/--
Different file counts have different suffixes, each with its zero in the array, so no file is opened
twice.
-/
theorem suffixes_distinct
    : (∀ a b : Nat, 1 ≤ a ∧ a < 2 ^ 31 → 1 ≤ b ∧ b < 2 ^ 31 → a ≠ b →
        ∃ buf buf',
          getNum a = some buf ∧ getNum b = some buf' ∧ CString.cStr buf ≠ CString.cStr buf' ∧
          buf.length = sizeofBuf ∧ 0 ∈ buf ∧ buf'.length = sizeofBuf ∧ 0 ∈ buf') ∧
        ∀ tm s₀ calls s,
          new tm = some s₀ → Run Wrote Run.Always s₀ calls s → s.files.length < 2 ^ 31 →
          (s.files.map fun file => file.name).Nodup := by
  constructor
  . rintro a b ⟨_, ha⟩ ⟨_, hb⟩ hne
    rcases getNum_natCast ha with ⟨buf, hbuf, hlen, hzero, hsuffix⟩
    rcases getNum_natCast hb with ⟨buf', hbuf', hlen', hzero', hsuffix'⟩
    refine ⟨buf, buf', hbuf, hbuf', ?_, hlen, hzero, hlen', hzero'⟩
    rw [hsuffix, hsuffix']
    exact fun heq => hne (suffix_inj heq)
  . intro tm s₀ calls s hnew hrun hlen
    have hs : Numbered s := by
      apply hrun.invariant (numbered_new hnew)
      exact fun s c s' hs _ hwrote => hs.wrote hwrote
    apply hs.nodup
    unfold names
    rw [List.length_map]
    exact hlen

-- "_1.log" and "_01.log"
theorem suffixes_distinct_ten
    : ∃ buf buf',
        getNum 1 = some buf ∧ getNum 10 = some buf' ∧ CString.cStr buf ≠ CString.cStr buf' := by
  rcases suffixes_distinct.1 1 10 (by decide) (by decide) (by decide)
    with ⟨buf, buf', hbuf, hbuf', hne, _⟩
  exact ⟨buf, buf', hbuf, hbuf', hne⟩

end LogFile
end Fish
