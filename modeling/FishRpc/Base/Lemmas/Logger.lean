import FishRpc.Base.Impl.Logger
import FishRpc.Base.Lemmas.LogStream

/-!
This module contains the lines that a `Logger` writes: what each of them begins with, whatever lines
were written before it, and how long a message can be for nothing of its line to be dropped.
-/

namespace Fish
namespace Logger

open LogBuffer (Written headLevel lowLevel crlf)
open LogStream (Piece)

variable {l l' : Logger} {call : LogCall}

/-! ### Names -/

-- what is behind the last '/'
def baseName (path : List Byte) : List Byte := (path.reverse.takeWhile fun b => b != slash).reverse

theorem findFileName_spec {path : List Byte} (h : slash ∈ path)
    : ∃ k, findFileName path = some k ∧ path.drop k = baseName path := by
  have hmem : ∃ b ∈ path.reverse, (b == slash) = true :=
    ⟨slash, List.mem_reverse.mpr h, beq_self_eq_true slash⟩
  have hlt := List.findIdx_lt_length_of_exists hmem
  rw [List.length_reverse] at hlt
  have hfind : path.reverse.findIdx? (fun b => b == slash)
      = some (path.reverse.findIdx fun b => b == slash) := by
    rw [List.findIdx?_eq_some_iff_findIdx_eq]
    refine ⟨?_, rfl⟩
    rw [List.length_reverse]
    exact hlt
  refine ⟨path.length - 1 - (path.reverse.findIdx fun b => b == slash) + 1, ?_, ?_⟩
  . unfold findFileName
    rw [hfind]
    rfl
  . unfold baseName
    rw [List.takeWhile_eq_take_findIdx_not]
    simp only [bne, Bool.not_not]
    rw [List.reverse_take, List.reverse_reverse, List.length_reverse]
    congr 1
    omega

-- the first characters of a name, filled up with blanks
def column (name : List Byte) : List Byte :=
  name.take defaultSize ++ List.replicate (defaultSize - name.length) 32

theorem length_column (name : List Byte) : (column name).length = defaultSize := by
  unfold column
  rw [List.length_append, List.length_take, List.length_replicate]
  omega

theorem write_append {pre rest src : List Byte} {off : Nat} (hoff : off = pre.length)
    (h : src.length ≤ rest.length)
    : write (pre ++ rest) off src = some (pre ++ src ++ rest.drop src.length) := by
  subst hoff
  unfold write LogThread.memcpy
  rw [if_pos (by rw [List.length_append]; omega)]
  rw [List.take_left, List.drop_append, List.drop_eq_nil_of_le (by omega), List.nil_append]
  congr 3
  omega

theorem write_zero {buf src : List Byte} (h : src.length ≤ buf.length)
    : write buf 0 src = some (src ++ buf.drop src.length) := by
  have hwrite : write ([] ++ buf) 0 src = some ([] ++ src ++ buf.drop src.length) :=
    write_append rfl h
  exact hwrite

/--
Nothing of what the buffer held before is left in front of the zero.
-/
theorem dealLogStr_eq (name : List Byte) {buf : List Byte} (h : defaultSize < buf.length)
    : dealLogStr name buf defaultSize = some (column name ++ 0 :: buf.drop (defaultSize + 1)) := by
  have hmax : min defaultSize (maxNameSize - 1) = defaultSize := rfl
  have hlast : write (column name ++ buf.drop defaultSize) defaultSize [0]
      = some (column name ++ 0 :: buf.drop (defaultSize + 1)) := by
    rw [write_append (length_column name).symm]
    . rw [List.drop_drop, List.append_assoc]
      rfl
    . rw [List.length_drop, List.length_singleton]
      omega
  unfold dealLogStr
  simp only [hmax]
  by_cases hlong : defaultSize ≤ name.length
  . have htake : (name.take defaultSize).length = defaultSize := List.length_take_of_le hlong
    have hcolumn : column name = name.take defaultSize := by
      unfold column
      rw [Nat.sub_eq_zero_of_le hlong]
      exact List.append_nil _
    have hfirst : write buf 0 (name.take defaultSize)
        = some (column name ++ buf.drop defaultSize) := by
      rw [write_zero (by omega), htake, hcolumn]
    rw [Nat.min_eq_right hlong]
    rw [hfirst, Option.bind_eq_bind, Option.bind_some, if_neg (Nat.lt_irrefl _)]
    rw [Option.bind_some]
    exact hlast
  . have hshort : name.length < defaultSize := Nat.lt_of_not_le hlong
    have htake : name.take name.length = name := List.take_length
    have hcolumn : column name = name ++ List.replicate (defaultSize - name.length) 32 := by
      unfold column
      rw [List.take_of_length_le (Nat.le_of_lt hshort)]
    have hblanks : blanks.take (defaultSize - name.length)
        = List.replicate (defaultSize - name.length) 32 := by
      have hroom : defaultSize ≤ 63 := by decide
      unfold blanks
      rw [List.take_replicate, Nat.min_eq_left (by omega)]
    have hfirst : write buf 0 name = some (name ++ buf.drop name.length) :=
      write_zero (by omega)
    have hsecond : write (name ++ buf.drop name.length) name.length
        (blanks.take (defaultSize - name.length)) = some (column name ++ buf.drop defaultSize) := by
      rw [hblanks, write_append rfl]
      . rw [List.length_replicate, List.drop_drop, hcolumn]
        congr 3
        omega
      . rw [List.length_replicate, List.length_drop]
        omega
    rw [Nat.min_eq_left (Nat.le_of_lt hshort), htake]
    rw [hfirst, Option.bind_eq_bind, Option.bind_some, if_pos hshort]
    rw [hsecond, Option.bind_some]
    exact hlast

theorem zero_notMem_column {name : List Byte} (h : 0 ∉ name) : 0 ∉ column name := by
  intro hmem
  rcases List.mem_append.mp hmem with htake | hblank
  . exact h (List.mem_of_mem_take htake)
  . have hzero := List.eq_of_mem_replicate hblank
    exact absurd hzero (by decide)

theorem cStr_column {name : List Byte} (h : 0 ∉ name) (rest : List Byte)
    : CString.cStr (column name ++ 0 :: rest) = column name :=
  CString.takeWhile_append_cons (zero_notMem_column h) rest

theorem zero_notMem_baseName (path : CText) : 0 ∉ baseName path.val := by
  intro hmem
  unfold baseName at hmem
  rw [List.mem_reverse] at hmem
  exact path.property (List.mem_reverse.mp ((List.takeWhile_sublist _).mem hmem))

/-! ### What a line begins with -/

def headerPieces (call : LogCall) : List Piece :=
  [.string (TimePoint.toLogString call.count), .cstr (some tab), .integer .int call.tid,
    .cstr (some tab), .cstr (some (column (baseName call.fileName.val))), .cstr (some tab),
    .integer .int call.line, .cstr (some tab), .cstr (some (column call.funName.val)),
    .cstr (some tab), .cstr (some levelToStr)]

def bytes (pieces : List Piece) : List Byte := pieces.flatMap Piece.bytes

def header (call : LogCall) : List Byte := bytes (headerPieces call)

-- there is room for the columns and a zero
structure Roomy (l : Logger) : Prop where
  fileN : defaultSize < l.fileN.length
  funN : defaultSize < l.funN.length

theorem roomy_resizeBuf (l : Logger) : l.resizeBuf.Roomy := by
  have hlength (s : List Byte) : defaultSize < (resize maxNameSize s).length := by
    have hsize : maxNameSize = 25 := rfl
    have hdefault : defaultSize = 15 := rfl
    unfold resize
    rw [List.length_append, List.length_take, List.length_replicate]
    omega
  exact ⟨hlength l.fileN, hlength l.funN⟩

theorem receive_spec (h : l.Roomy) (hslash : slash ∈ call.fileName.val) {stream : LogStream}
    (hstream : insertAll l.stream (headerPieces call) = some stream)
    : ∃ l', l.receive call = some l' ∧ l'.Roomy ∧ l'.stream = stream := by
  rcases findFileName_spec hslash with ⟨k, hk, hdrop⟩
  have hfile := dealLogStr_eq (baseName call.fileName.val) h.fileN
  have hfun := dealLogStr_eq call.funName.val h.funN
  have hroom (name buf : List Byte) (hbuf : defaultSize < buf.length)
      : defaultSize < (column name ++ 0 :: buf.drop (defaultSize + 1)).length := by
    rw [List.length_append, length_column, List.length_cons]
    omega
  have hroomy := Roomy.mk (l := ⟨_, _, stream⟩) (hroom (baseName call.fileName.val) l.fileN h.fileN)
    (hroom call.funName.val l.funN h.funN)
  refine ⟨_, ?_, hroomy, rfl⟩
  unfold receive
  simp only [hk, hdrop, hfile, hfun, Option.bind_eq_bind, Option.bind_some,
    cStr_column (zero_notMem_baseName call.fileName), cStr_column call.funName.property]
  unfold headerPieces at hstream
  rw [hstream]
  rfl

theorem insertAll_spec {stream : LogStream} {pieces : List Piece}
    (h : stream.buf.index + (bytes pieces).length ≤ headLevel)
    : ∃ stream', insertAll stream pieces = some stream' ∧
        stream'.written = stream.written ++ bytes pieces ∧
        stream'.buf.index = stream.buf.index + (bytes pieces).length := by
  induction pieces generalizing stream with
  | nil => exact ⟨stream, rfl, (List.append_nil _).symm, rfl⟩
  | cons piece pieces ih =>
    have hbytes : bytes (piece :: pieces) = piece.bytes ++ bytes pieces := rfl
    have hhead : headLevel = 10237 := rfl
    rw [hbytes, List.length_append] at h
    have hsafe : stream.Safe := by
      unfold LogStream.Safe
      omega
    rcases LogStream.insert_spec hsafe (by omega : piece.bytes.length < 2 ^ 31) with
      ⟨stream₁, hinsert, hhanded, hwritten⟩
    cases hwritten with
    | kept hfits hindex hcontent =>
      rcases ih (by omega : stream₁.buf.index + (bytes pieces).length ≤ headLevel) with
        ⟨stream', hall, hwritten', hindex'⟩
      refine ⟨stream', ?_, ?_, ?_⟩
      . unfold insertAll at hall ⊢
        rw [List.foldlM_cons, hinsert]
        exact hall
      . rw [hwritten', hbytes, ← List.append_assoc]
        congr 1
        unfold LogStream.written
        rw [hhanded, hcontent, List.append_assoc]
      . rw [hindex', hindex, hbytes, List.length_append]
        omega
    | dropped hfull _ => omega

/-! ### The length of a line -/

theorem length_pad_le {c : Byte} {width k : Nat} {text : List Byte} (hwidth : width ≤ k)
    (h : text.length ≤ k) : (LogFile.pad c width text).length ≤ k := by
  unfold LogFile.pad
  rw [List.length_append, List.length_replicate]
  omega

theorem length_magnitude_le {n k : Nat} (hk : 0 < k) (h : n < 10 ^ k)
    : (Decimal.magnitude n).length ≤ k := by
  rw [Decimal.length_magnitude]
  apply Decimal.length_digits_le hk h

-- hours, minutes and seconds have two digits each, microseconds at most seven characters
theorem length_toLogString (count : Int) : (TimePoint.toLogString count).length = 64 := by
  have htwo {v : Int} (hnonneg : 0 ≤ v) (hlt : v < 100)
      : (LogFile.pad 48 2 (Decimal.numeral v)).length ≤ 2 := by
    apply length_pad_le (Nat.le_refl 2)
    unfold Decimal.numeral
    rw [if_neg (by omega)]
    exact length_magnitude_le (by decide) (by omega)
  have hrem : (count.tmod 1000000).natAbs < 10 ^ 6 := by
    rw [Int.natAbs_tmod]
    exact Nat.mod_lt _ (by decide)
  have hsix : (if count.tmod 1000000 < 0 then
      Decimal.minus :: LogFile.pad 48 5 (Decimal.magnitude (count.tmod 1000000).natAbs)
    else
      LogFile.pad 48 6 (Decimal.magnitude (count.tmod 1000000).natAbs)).length ≤ 7 := by
    have hmagnitude := length_magnitude_le (by decide) hrem
    split
    . rw [List.length_cons]
      exact Nat.succ_le_succ (length_pad_le (by decide) hmagnitude)
    . exact length_pad_le (by decide) (Nat.le_succ_of_le hmagnitude)
  unfold TimePoint.toLogString
  simp only
  rw [List.length_append, List.length_replicate]
  have hday := Int.emod_nonneg (count.tdiv 1000000 + 8 * 3600) (by decide : (86400 : Int) ≠ 0)
  have hday' := Int.emod_lt_of_pos (count.tdiv 1000000 + 8 * 3600) (by decide : (0 : Int) < 86400)
  have hhour := htwo (v := (count.tdiv 1000000 + 8 * 3600) % 86400 / 3600) (by omega) (by omega)
  have hmin := htwo (v := (count.tdiv 1000000 + 8 * 3600) % 86400 / 60 % 60) (by omega) (by omega)
  have hsec := htwo (v := (count.tdiv 1000000 + 8 * 3600) % 86400 % 60) (by omega) (by omega)
  simp only [List.length_append, List.length_cons]
  omega

theorem bytes_int (v : IntType.int.Value) : Piece.bytes (.integer .int v) = Decimal.numeral v.val := by
  simp only [Piece.bytes, Piece.text]
  rw [LogStream.integer_eq]
  rfl

theorem length_int_le (v : IntType.int.Value) : (Piece.bytes (.integer .int v)).length ≤ 11 := by
  have habs : v.val.natAbs < 10 ^ 10 := by
    have hmin : -10 ^ 10 < IntType.int.min := by decide
    have hmax : IntType.int.max < 10 ^ 10 := by decide
    have hv := v.property
    omega
  rw [bytes_int]
  exact Decimal.length_numeral_le (by decide) habs

theorem length_header_le (call : LogCall) : (header call).length ≤ 128 := by
  have htime : (Piece.bytes (.string (TimePoint.toLogString call.count))).length = 64 :=
    length_toLogString call.count
  have htid := length_int_le call.tid
  have hline := length_int_le call.line
  have hfile : (Piece.bytes (.cstr (some (column (baseName call.fileName.val))))).length = 15 :=
    length_column _
  have hfun : (Piece.bytes (.cstr (some (column call.funName.val)))).length = 15 := length_column _
  have htab : (Piece.bytes (.cstr (some tab))).length = 1 := rfl
  have hlevel : (Piece.bytes (.cstr (some levelToStr))).length = 7 := rfl
  unfold header headerPieces bytes
  simp only [List.flatMap_cons, List.flatMap_nil, List.length_append, List.length_nil]
  omega

/-! ### Lines -/

def line (call : LogCall) : List Byte := header call ++ bytes call.pieces ++ crlf

-- the stream is between two lines
structure Ready (l : Logger) : Prop extends l.Roomy where
  index : l.stream.buf.index < lowLevel

theorem log_spec (h : l.Ready) (hslash : slash ∈ call.fileName.val)
    (hshort : (bytes call.pieces).length ≤ 126)
    : ∃ l', l.log call = some l' ∧ l'.Ready ∧
        l'.stream.written = l.stream.written ++ line call := by
  have hheader := length_header_le call
  have hlevels : headLevel = lowLevel + 253 := rfl
  have hindex := h.index
  have hroom : l.stream.buf.index + (bytes (headerPieces call)).length ≤ headLevel := by
    unfold header at hheader
    omega
  rcases insertAll_spec hroom with ⟨stream₁, hfirst, hwritten₁, hindex₁⟩
  rcases receive_spec h.toRoomy hslash hfirst with ⟨l₁, hreceive, hroomy, hstream⟩
  unfold header at hheader
  have hroom₁ : stream₁.buf.index + (bytes call.pieces).length ≤ headLevel := by omega
  rcases insertAll_spec hroom₁ with ⟨stream₂, hsecond, hwritten₂, hindex₂⟩
  have hsafe : stream₂.Safe := by
    unfold LogStream.Safe
    omega
  rcases LogStream.end_spec hsafe with ⟨stream₃, hend, hwritten₃, hindex₃⟩
  refine ⟨{ l₁ with stream := stream₃ }, ?_, ⟨⟨hroomy.fileN, hroomy.funN⟩, hindex₃⟩, ?_⟩
  . unfold log
    simp only [hreceive, hstream, hsecond, hend, Option.bind_eq_bind, Option.bind_some]
    rfl
  . show stream₃.written = l.stream.written ++ line call
    rw [hwritten₃, hwritten₂, hwritten₁]
    unfold line header
    simp only [List.append_assoc]

-- the stream of a thread before its first line
def start (fileN funN : List Byte) : Logger where
  fileN := fileN
  funN := funN
  stream := .init

/--
Messages of up to 126 bytes are written as a whole behind the columns of their lines, one line after
the other, whatever is in the buffers of the names.
-/
theorem written_of_calls {fileN funN : List Byte} (hfileN : defaultSize < fileN.length)
    (hfunN : defaultSize < funN.length) (calls : List LogCall)
    (hslash : ∀ call ∈ calls, slash ∈ call.fileName.val)
    (hshort : ∀ call ∈ calls, (bytes call.pieces).length ≤ 126)
    : ∃ l, calls.foldlM log (start fileN funN) = some l ∧
        l.stream.handed.flatten ++ l.stream.buf.content = calls.flatMap line := by
  have hboth : ∃ l, calls.foldlM log (start fileN funN) = some l ∧ l.Ready ∧
      l.stream.written = calls.flatMap line := by
    induction calls using List.reverseRecOn with
    | nil =>
      refine ⟨start fileN funN, rfl, ⟨⟨hfileN, hfunN⟩, ?_⟩, rfl⟩
      apply Nat.le_of_ble_eq_true rfl
    | append_singleton calls call ih =>
      have hmem : call ∈ calls ++ [call] := List.mem_append_right _ List.mem_cons_self
      rcases ih (fun c hc => hslash c (List.mem_append_left _ hc))
        (fun c hc => hshort c (List.mem_append_left _ hc)) with ⟨l, hl, hready, hwritten⟩
      rcases log_spec hready (hslash call hmem) (hshort call hmem) with
        ⟨l', hlog, hready', hwritten'⟩
      refine ⟨l', ?_, hready', ?_⟩
      . rw [List.foldlM_append, hl]
        simpa using hlog
      . rw [hwritten', hwritten]
        simp
  rcases hboth with ⟨l, hl, _, hwritten⟩
  exact ⟨l, hl, hwritten⟩

-- "/a.cpp" and a function "f"
def hello : LogCall where
  count := 0
  tid := ⟨7, by decide⟩
  fileName := ⟨[47, 97, 46, 99, 112, 112], by decide⟩
  line := ⟨3, by decide⟩
  funName := ⟨[102], by decide⟩
  pieces := [.cstr (some [104, 105])]

theorem written_of_calls_hello
    : ∃ l, [hello, hello].foldlM log (start [] []).resizeBuf = some l ∧
        l.stream.handed.flatten ++ l.stream.buf.content = [hello, hello].flatMap line := by
  have hroomy := roomy_resizeBuf (start [] [])
  have hmem {c : LogCall} (hc : c ∈ [hello, hello]) : c = hello := by simpa using hc
  apply written_of_calls hroomy.fileN hroomy.funN [hello, hello]
  . intro c hc
    rw [hmem hc]
    decide
  . intro c hc
    rw [hmem hc]
    decide

end Logger
end Fish
