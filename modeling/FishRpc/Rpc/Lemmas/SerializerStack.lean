import FishRpc.Rpc.Lemmas.SerializerChecked
import FishRpc.Rpc.Lemmas.SerializerReencode

/-!
This module contains what decoded values depend on besides the bytes in the buffer: the content of
uninitialised locals. A read is `Noisy`, the state are the bytes in the buffer and the noise is the
content of the locals.
-/

namespace Fish

open LittleEndian

def Scalar.ofBytes : (t : Scalar) → List Byte → t.carrier
  | .bool, bytes => BitVec.ofNat 8 (LittleEndian.ofBytes bytes) != 0#8
  | .int8, bytes | .uint8, bytes => BitVec.ofNat 8 (LittleEndian.ofBytes bytes)
  | .int16, bytes | .uint16, bytes => BitVec.ofNat 16 (LittleEndian.ofBytes bytes)
  | .int32, bytes | .uint32, bytes | .float, bytes => BitVec.ofNat 32 (LittleEndian.ofBytes bytes)
  | .int64, bytes | .uint64, bytes | .double, bytes => BitVec.ofNat 64 (LittleEndian.ofBytes bytes)

theorem Scalar.ofBytes_last (t : Scalar) {pre : List Byte} (hpre : pre.length + 1 = t.width)
    : ∃ x y, t.ofBytes (pre ++ [x]) ≠ t.ofBytes (pre ++ [y]) := by
  have hlength (x : Byte) : (pre ++ [x]).length = t.width := by
    rw [List.length_append, List.length_singleton]
    exact hpre
  have hdiffer (h : pre ++ [0#8] = pre ++ [1#8]) : False := by simp at h
  refine ⟨0, 1, ?_⟩
  cases t with
  | bool =>
    have hnil : pre = [] := List.eq_nil_of_length_eq_zero (Nat.succ.inj hpre)
    rw [hnil]
    exact Bool.false_ne_true
  | _ => exact fun heq => hdiffer (ofNat_ofBytes_inj (hlength 0) (hlength 1) heq)

namespace Serializer

def noisy (read : Serializer → Except Fault (α × Serializer)) : Noisy (List Byte) Byte α :=
  fun bytes stack => (read ⟨⟨bytes, stack⟩⟩).map fun (v, s) => (v, s.bytes, s.buf.stack)

theorem noisy_bind {α β : Type} (read : Serializer → Except Fault (α × Serializer))
    (k : α → Serializer → Except Fault (β × Serializer))
    : noisy (fun s => read s >>= fun x => k x.1 x.2)
        =
      Noisy.bind (noisy read) fun a => noisy (k a) := by
  funext bytes stack
  unfold noisy Noisy.bind
  simp only
  cases read ⟨⟨bytes, stack⟩⟩ with
  | error fault => rfl
  | ok x => rfl

theorem yields_noisy {α : Type} {read : Serializer → Except Fault (α × Serializer)}
    {bytes bytes' : List Byte} {v : α}
    : (noisy read).Yields bytes v bytes'
        ↔
      ∃ stack s, read ⟨⟨bytes, stack⟩⟩ = .ok (v, s) ∧ s.bytes = bytes' := by
  unfold Noisy.Yields noisy
  constructor
  . rintro ⟨stack, stack', h⟩
    cases hread : read ⟨⟨bytes, stack⟩⟩ with
    | error fault =>
      rw [hread] at h
      cases h
    | ok x =>
      rw [hread] at h
      cases h
      exact ⟨stack, x.2, hread, rfl⟩
  . rintro ⟨stack, s, hread, hbytes⟩
    refine ⟨stack, s.buf.stack, ?_⟩
    rw [hread, ← hbytes]
    rfl

theorem noisy_outputFixed (width : Nat) (value : BitVec (8 * width) → α)
    : noisy (fun s => .ok (value (s.buf.outputFixed width).1, ⟨(s.buf.outputFixed width).2⟩))
        =
      Noisy.letters width fun bytes => value (BitVec.ofNat (8 * width) (ofBytes bytes)) := by
  funext bytes stack
  have hout := SeriBuf.outputFixed_eq width ⟨bytes, stack⟩
  exact congrArg (fun r => Except.ok (value r.1, r.2.buf, r.2.stack)) hout

theorem noisy_scalar (t : Scalar) (v : t.carrier)
    : noisy (elementChecked (.scalar t) v) = Noisy.letters t.width t.ofBytes := by
  cases t with
  | bool => exact noisy_outputFixed 1 fun value => value != 0#8
  | int8 | uint8 => exact noisy_outputFixed 1 id
  | int16 | uint16 => exact noisy_outputFixed 2 id
  | int32 | uint32 | float => exact noisy_outputFixed 4 id
  | int64 | uint64 | double => exact noisy_outputFixed 8 id

theorem noisy_outputSize
    : noisy (fun s => .ok (outputSize s)) = Noisy.letters sizeofSizeT ofBytes := by
  have hsize := noisy_outputFixed sizeofSizeT BitVec.toNat
  funext bytes stack
  have hvalue := outputSize_announced ⟨⟨bytes, stack⟩⟩
  have hrest := congrArg Prod.snd (Except.ok.inj (congrFun (congrFun hsize bytes) stack))
  exact congrArg Except.ok (Prod.ext hvalue hrest)

theorem noisy_readLoop {α β : Type} (read : Serializer → Except Fault (α × Serializer))
    (store : α → β → β) (size : Nat) (v : β)
    : noisy (readLoopChecked read store size v) = Noisy.loop (noisy read) store size v := by
  induction size generalizing v with
  | zero => rfl
  | succ size ih =>
    have hbind := noisy_bind read fun x => readLoopChecked read store size (store x v)
    simp only [ih] at hbind
    exact hbind

theorem noisy_pair {α β : Type} (readA : Serializer → Except Fault (α × Serializer))
    (readB : Serializer → Except Fault (β × Serializer))
    : noisy (pairChecked readA readB)
        =
      Noisy.bind (noisy readA) fun a => Noisy.bind (noisy readB) fun b => Noisy.ret (a, b) := by
  have hfirst := noisy_bind readA fun a s => readB s >>= fun y => .ok ((a, y.1), y.2)
  have hsecond (a : α) := noisy_bind readB fun b s => .ok ((a, b), s)
  simp only [hsecond] at hfirst
  exact hfirst

/-! ### Strings -/

-- strings stay empty, only the bytes that a string announces are gone
def skip (size : Nat) : Noisy (List Byte) Byte (List Byte) :=
  fun bytes stack =>
    if SeriBuf.stringRoom < min size bytes.length then
      .error .undefined
    else
      .ok ([], bytes.drop size, stack)

theorem noisy_string (v : List Byte)
    : noisy (elementChecked .string v)
        =
      Noisy.bind (Noisy.letters sizeofSizeT ofBytes) skip := by
  rw [← noisy_outputSize]
  funext bytes stack
  let s : Serializer := ⟨⟨bytes, stack⟩⟩
  have hrest := SeriBuf.output_rest (outputSize s).2.buf [] (outputSize s).1
  show (elementChecked .string v s).map _ = skip (outputSize s).1 (outputSize s).2.bytes _
  unfold skip
  by_cases hlt : SeriBuf.stringRoom < min (outputSize s).1 (outputSize s).2.bytes.length
  . have hstring : s.buf.outputStringChecked = .error .undefined := if_pos hlt
    rw [if_pos hlt]
    show ((s.buf.outputStringChecked >>= _ >>= _ : Except Fault _).map _) = _
    rw [hstring]
    rfl
  . have hstring : s.buf.outputStringChecked
        = .ok ([], ((outputSize s).2.buf.output [] (outputSize s).1).2) := if_neg hlt
    rw [if_neg hlt]
    show ((s.buf.outputStringChecked >>= _ >>= _ : Except Fault _).map _) = _
    rw [hstring, hrest]
    rfl

theorem yields_skip {size : Nat} {bytes bytes' v : List Byte}
    (h : (skip size).Yields bytes v bytes') : v = [] ∧ bytes' = bytes.drop size := by
  rcases h with ⟨stack, stack', h⟩
  unfold skip at h
  split at h
  . cases h
  . cases h
    exact ⟨rfl, rfl⟩

theorem safe_skip_iff {size : Nat} {bytes : List Byte}
    : (skip size).Safe bytes ↔ min size bytes.length ≤ SeriBuf.stringRoom := by
  unfold Noisy.Safe skip
  by_cases hlt : SeriBuf.stringRoom < min size bytes.length
  . simp only [hlt, ↓reduceIte, ne_eq, not_true_eq_false, forall_const, false_iff, Nat.not_le]
  . simp only [hlt, ↓reduceIte, ne_eq, reduceCtorEq, not_false_eq_true, forall_const, true_iff]
    exact Nat.le_of_not_lt hlt

theorem yields_skip_nil (size : Nat) : (skip size).Yields [] [] [] := by
  refine ⟨fun _ => 0, fun _ => 0, ?_⟩
  unfold skip
  rw [List.drop_nil]
  exact if_neg (by simp)

theorem fading_skip (size : Nat) : Noisy.Fading [] (skip size) where
  isLocal bytes stack := by
    refine ⟨0, ?_⟩
    intro stack' _
    unfold skip
    split
    . rfl
    . rfl
  safe := safe_skip_iff.mpr (by simp)
  live := ⟨[], yields_skip_nil size⟩
  stays v bytes hy := by
    rw [(yields_skip hy).2]
    apply List.drop_nil
  drains bytes := by
    left
    intro v v' rest rest' hy hy'
    rcases yields_skip hy with ⟨hv, hrest⟩
    rcases yields_skip hy' with ⟨hv', hrest'⟩
    exact ⟨hv.trans hv'.symm, hrest.trans hrest'.symm⟩
  covers bytes v bytes' hy := by
    rw [(yields_skip hy).1]
    apply yields_skip_nil

theorem fading_string (v : List Byte) : Noisy.Fading [] (noisy (elementChecked .string v)) := by
  rw [noisy_string]
  exact (Noisy.Fading.letters _ _).bind fading_skip

theorem determined_string (v : List Byte) (bytes : List Byte)
    : (noisy (elementChecked .string v)).Determined bytes := by
  have hletters : Noisy.Fading [] (Noisy.letters sizeofSizeT ofBytes) := .letters _ _
  have hall {size : Nat} {bytes' v' rest : List Byte}
      (hsize : (Noisy.letters sizeofSizeT ofBytes).Yields bytes size bytes')
      (hy : (skip size).Yields bytes' v' rest)
      : v' = [] ∧ rest = (bytes.drop sizeofSizeT).drop (ofBytes (bytes.take sizeofSizeT)) := by
    rcases yields_skip hy with ⟨hv, hrest⟩
    refine ⟨hv, ?_⟩
    by_cases hle : sizeofSizeT ≤ bytes.length
    . rw [Noisy.yields_letters_of_le hle] at hsize
      rw [hrest, ← hsize.1, ← hsize.2]
    . rcases Noisy.yields_letters.mp hsize with ⟨_, _, _, hbytes'⟩
      have hnil : bytes.drop sizeofSizeT = [] := List.drop_eq_nil_of_le (by omega)
      rw [hrest, ← hbytes', hnil, List.drop_nil, List.drop_nil]
  rw [noisy_string]
  intro v₁ v₂ rest₁ rest₂ h₁ h₂
  rcases (Noisy.yields_bind hletters.isLocal).mp h₁ with ⟨size₁, bytes₁, hsize₁, hskip₁⟩
  rcases (Noisy.yields_bind hletters.isLocal).mp h₂ with ⟨size₂, bytes₂, hsize₂, hskip₂⟩
  rcases hall hsize₁ hskip₁ with ⟨hv₁, hrest₁⟩
  rcases hall hsize₂ hskip₂ with ⟨hv₂, hrest₂⟩
  exact ⟨hv₁.trans hv₂.symm, hrest₁.trans hrest₂.symm⟩

-- what is copied of a string stays in the result
def OutputFits : CppType .type → List Byte → Prop
  | .string, bytes =>
    sizeofSizeT ≤ bytes.length →
      min (ofBytes (bytes.take sizeofSizeT)) (bytes.length - sizeofSizeT) ≤ SeriBuf.stringRoom
  | _, _ => True

-- what `output` reads is in the buffer
def OutputSettled : CppType .type → List Byte → Prop
  | .scalar t, bytes => t.width ≤ bytes.length
  | _, _ => True

theorem fading_output (t : CppType .type) (v : t.carrier)
    : Noisy.Fading [] (noisy (elementChecked t v)) := by
  cases t with
  | scalar t =>
    have hletters := Noisy.Fading.letters t.width t.ofBytes
    rw [← noisy_scalar t v] at hletters
    exact hletters
  | string => exact fading_string v
  | _ => exact Noisy.Fading.ret [] v

theorem safe_string_iff (bytes : List Byte)
    : (Noisy.bind (Noisy.letters sizeofSizeT ofBytes) skip).Safe bytes
        ↔
      OutputFits .string bytes := by
  have hletters : Noisy.Fading [] (Noisy.letters sizeofSizeT ofBytes) := .letters _ _
  rw [Noisy.safe_bind hletters.isLocal]
  rw [and_iff_right (Noisy.safe_letters _ _ _)]
  unfold OutputFits
  constructor
  . intro h hle
    have hskip := h _ _ ((Noisy.yields_letters_of_le hle).mpr ⟨rfl, rfl⟩)
    rw [safe_skip_iff, List.length_drop] at hskip
    exact hskip
  . intro h size rest hsize
    by_cases hle : sizeofSizeT ≤ bytes.length
    . rw [Noisy.yields_letters_of_le hle] at hsize
      rw [← hsize.1, ← hsize.2, safe_skip_iff, List.length_drop]
      apply h hle
    . have hnil : bytes.drop sizeofSizeT = [] := List.drop_eq_nil_of_le (by omega)
      rcases Noisy.yields_letters.mp hsize with ⟨_, _, _, hrest⟩
      rw [← hrest, hnil]
      exact (fading_skip size).safe

theorem safe_output_iff (t : CppType .type) (v : t.carrier) (bytes : List Byte)
    : (noisy (elementChecked t v)).Safe bytes ↔ OutputFits t bytes := by
  cases t with
  | scalar t =>
    have hletters := Noisy.safe_letters t.width t.ofBytes bytes
    rw [← noisy_scalar t v] at hletters
    exact iff_of_true hletters trivial
  | string =>
    have hstring := safe_string_iff bytes
    rw [← noisy_string v] at hstring
    exact hstring
  | _ => exact iff_of_true (Noisy.safe_ret v bytes) trivial

theorem determined_output_iff (t : CppType .type) (v : t.carrier) (bytes : List Byte)
    : (noisy (elementChecked t v)).Determined bytes ↔ OutputSettled t bytes := by
  cases t with
  | scalar t =>
    have hletters := Noisy.determined_letters_iff (l := bytes) fun _ => t.ofBytes_last
    rw [← noisy_scalar t v] at hletters
    exact hletters
  | string => exact iff_of_true (determined_string v bytes) trivial
  | _ => exact iff_of_true (Noisy.determined_ret v bytes) trivial

/-! ### Containers -/

-- no `size_t` is greater
def sizeLimit : Nat := 2 ^ 64 - 1

-- `operator>>` of a container
def readAll (limit : Nat) (read : Serializer → Except Fault (α × Serializer)) (store : α → β → β)
    (v : β) (s : Serializer) : Except Fault (β × Serializer) :=
  let (size, s) := outputSize s
  if limit < size then .error .thrown else readLoopChecked read store size v s

theorem noisy_readAll {α β : Type} (limit : Nat) (read : Serializer → Except Fault (α × Serializer))
    (store : α → β → β) (v : β)
    : noisy (readAll limit read store v)
        =
      Noisy.bind (Noisy.bounded limit (Noisy.letters sizeofSizeT ofBytes)) fun size =>
        Noisy.loop (noisy read) store size v := by
  have hloop := fun size => noisy_readLoop read store size v
  rw [← noisy_outputSize]
  simp only [← hloop]
  funext bytes stack
  let s : Serializer := ⟨⟨bytes, stack⟩⟩
  show (ite (limit < (outputSize s).1) _ _ : Except Fault _).map _ = _
  by_cases hlt : limit < (outputSize s).1
  . have hbounded : Noisy.bounded limit (noisy fun s => .ok (outputSize s)) bytes stack
        = .error .thrown := if_pos hlt
    rw [if_pos hlt, Noisy.bind_error hbounded]
    rfl
  . have hbounded : Noisy.bounded limit (noisy fun s => .ok (outputSize s)) bytes stack
        = .ok ((outputSize s).1, (outputSize s).2.bytes, (outputSize s).2.buf.stack) :=
      if_neg hlt
    rw [if_neg hlt, Noisy.bind_ok hbounded]
    rfl

theorem readAll_sizeLimit {α β : Type} (read : Serializer → Except Fault (α × Serializer))
    (store : α → β → β) (v : β) (s : Serializer)
    : readAll sizeLimit read store v s
        =
      readLoopChecked read store (outputSize s).1 v (outputSize s).2 :=
  if_neg (Nat.not_lt_of_le (Nat.le_sub_one_of_lt (BitVec.isLt _)))

-- the size in front of the elements, as far as it is there
def sizePrefix (bytes : List Byte) : Nat :=
  ofBytes (bytes.take sizeofSizeT)

def ContainerFits (limit : Nat) (fits : List Byte → Prop)
    (read : Serializer → Except Fault (α × Serializer)) (bytes : List Byte) : Prop :=
  sizeofSizeT ≤ bytes.length → sizePrefix bytes ≤ limit →
    Noisy.LoopSafe fits (noisy read) (sizePrefix bytes) (bytes.drop sizeofSizeT)

-- a size that is cut off is the smallest one, if others are allowed no element beyond it is stored
def ContainerSettled (limit : Nat) (settled : List Byte → Prop)
    (read : Serializer → Except Fault (α × Serializer)) (store : α → List α → List α) (v : List α)
    (bytes : List Byte) : Prop :=
  (sizePrefix bytes ≤ limit →
      Noisy.LoopSettled settled [] (noisy read) store (sizePrefix bytes) v
        (bytes.drop sizeofSizeT)) ∧
    (bytes.length < sizeofSizeT → sizePrefix bytes + 256 ^ bytes.length ≤ limit →
      ∀ v', (noisy (readLoopChecked read store (sizePrefix bytes) v)).Yields [] v' [] →
        Noisy.Idle (noisy read) store v' [])

def Fits (h : Placement) (maxSize : CppType .type → Nat)
    : (t : CppType p) → t.carrier → List Byte → Prop
  | .scalar t, _, bytes => OutputFits (.scalar t) bytes
  | .string, _, bytes => OutputFits .string bytes
  | .seq k t, _, bytes =>
    ContainerFits (if k = .vector then maxSize t else sizeLimit) (Fits h maxSize t t.default)
      (shrChecked h maxSize t t.default) bytes
  | .set _ t, _, bytes =>
    ContainerFits sizeLimit (OutputFits t) (elementChecked t t.default) bytes
  | .pair a b, v, bytes =>
    Fits h maxSize a v.1 bytes ∧
      ∀ x bytes', (noisy (shrChecked h maxSize a v.1)).Yields bytes x bytes' →
        Fits h maxSize b v.2 bytes'
  | .map _ a b, _, bytes =>
    ContainerFits sizeLimit
      (fun bytes =>
        Fits h maxSize a a.default bytes ∧
          ∀ x bytes', (noisy (shrChecked h maxSize a a.default)).Yields bytes x bytes' →
            Fits h maxSize b b.default bytes')
      (pairChecked (shrChecked h maxSize a a.default) (shrChecked h maxSize b b.default)) bytes
  | .tuple ts, v, bytes => Fits h maxSize ts v bytes
  | .nil, _, _ => True
  | .cons t ts, v, bytes =>
    Fits h maxSize t v.1 bytes ∧
      ∀ x bytes', (noisy (shrChecked h maxSize t v.1)).Yields bytes x bytes' →
        Fits h maxSize ts v.2 bytes'

def Settled (h : Placement) (maxSize : CppType .type → Nat)
    : (t : CppType p) → t.carrier → List Byte → Prop
  | .scalar t, _, bytes => OutputSettled (.scalar t) bytes
  | .string, _, bytes => OutputSettled .string bytes
  | .seq k t, (v : List t.carrier), bytes =>
    ContainerSettled (if k = .vector then maxSize t else sizeLimit) (Settled h maxSize t t.default)
      (shrChecked h maxSize t t.default) (fun x v => v ++ [x]) (if k = .vector then [] else v) bytes
  | .set k t, (v : List t.carrier), bytes =>
    ContainerSettled sizeLimit (OutputSettled t) (elementChecked t t.default)
      (h.insert k.unique k.ordered t.less t.equal id) v bytes
  | .pair a b, v, bytes =>
    Settled h maxSize a v.1 bytes ∧
      ∀ x bytes', (noisy (shrChecked h maxSize a v.1)).Yields bytes x bytes' →
        Settled h maxSize b v.2 bytes'
  | .map k a b, (v : List (a.carrier × b.carrier)), bytes =>
    ContainerSettled sizeLimit
      (fun bytes =>
        Settled h maxSize a a.default bytes ∧
          ∀ x bytes', (noisy (shrChecked h maxSize a a.default)).Yields bytes x bytes' →
            Settled h maxSize b b.default bytes')
      (pairChecked (shrChecked h maxSize a a.default) (shrChecked h maxSize b b.default))
      (h.insert k.unique k.ordered a.less a.equal Prod.fst) v bytes
  | .tuple ts, v, bytes => Settled h maxSize ts v bytes
  | .nil, _, _ => True
  | .cons t ts, v, bytes =>
    Settled h maxSize t v.1 bytes ∧
      ∀ x bytes', (noisy (shrChecked h maxSize t v.1)).Yields bytes x bytes' →
        Settled h maxSize ts v.2 bytes'

theorem storing_push_back : Noisy.Storing fun (x : α) v => v ++ [x] :=
  fun x v => Or.inr (List.perm_append_singleton x v)

theorem fading_readAll {α : Type} {limit : Nat}
    {read : Serializer → Except Fault (α × Serializer)} (hread : Noisy.Fading [] (noisy read))
    (store : α → List α → List α) (v : List α)
    : Noisy.Fading [] (noisy (readAll limit read store v)) := by
  have hzero : (Noisy.letters sizeofSizeT ofBytes).Yields [] 0 [] :=
    Noisy.yields_letters.mpr ⟨List.replicate 8 0, ⟨rfl, List.nil_prefix⟩, rfl, rfl⟩
  rw [noisy_readAll]
  exact ((Noisy.Fading.letters _ _).bounded hzero).bind fun size => hread.loop store size v

-- the bytes that are missing of a size are its upper ones
theorem yields_size_iff {bytes bytes' : List Byte} (hlt : bytes.length < sizeofSizeT) {size : Nat}
    : (Noisy.letters sizeofSizeT ofBytes).Yields bytes size bytes'
        ↔
      bytes' = [] ∧ ∃ upper : List Byte, upper.length = sizeofSizeT - bytes.length ∧
        size = ofBytes bytes + 256 ^ bytes.length * ofBytes upper := by
  have hnil : bytes.drop sizeofSizeT = [] := List.drop_eq_nil_of_le (by omega)
  have htake : bytes.take sizeofSizeT = bytes := List.take_of_length_le (by omega)
  rw [Noisy.yields_letters, hnil, htake]
  constructor
  . rintro ⟨l, ⟨hlength, upper, hupper⟩, hsize, hbytes'⟩
    rw [← hupper, List.length_append] at hlength
    refine ⟨hbytes'.symm, upper, by omega, ?_⟩
    rw [← hsize, ← hupper, ofBytes_append]
  . rintro ⟨hbytes', upper, hlength, hsize⟩
    refine ⟨bytes ++ upper, ⟨?_, List.prefix_append _ _⟩, ?_, hbytes'.symm⟩
    . rw [List.length_append]
      omega
    . rw [hsize, ofBytes_append]

theorem yields_least {bytes : List Byte} (hlt : bytes.length < sizeofSizeT)
    : (Noisy.letters sizeofSizeT ofBytes).Yields bytes (ofBytes bytes) [] := by
  rw [yields_size_iff hlt]
  refine ⟨rfl, List.replicate (sizeofSizeT - bytes.length) 0#8, List.length_replicate, ?_⟩
  rw [ofBytes_replicate_zero, Nat.mul_zero, Nat.add_zero]

theorem exists_greater_iff {bytes : List Byte} (hlt : bytes.length < sizeofSizeT) {limit : Nat}
    : (∃ size, ofBytes bytes < size ∧
          (Noisy.bounded limit (Noisy.letters sizeofSizeT ofBytes)).Yields bytes size [])
        ↔
      ofBytes bytes + 256 ^ bytes.length ≤ limit := by
  have hletters : Noisy.Fading [] (Noisy.letters sizeofSizeT ofBytes) := .letters _ _
  simp only [Noisy.yields_bounded hletters.isLocal]
  constructor
  . rintro ⟨size, hgreater, hle, hsize⟩
    rcases (yields_size_iff hlt).mp hsize with ⟨_, upper, _, hsize⟩
    have hpos : 0 < ofBytes upper := by
      apply Nat.pos_of_ne_zero
      intro hzero
      rw [hzero, Nat.mul_zero] at hsize
      omega
    have hmul := Nat.le_mul_of_pos_right (256 ^ bytes.length) hpos
    omega
  . intro hle
    have hpos : 0 < 256 ^ bytes.length := Nat.pow_pos (by decide)
    refine ⟨_, by omega, hle, ?_⟩
    rw [yields_size_iff hlt]
    refine ⟨rfl, 1#8 :: List.replicate (sizeofSizeT - bytes.length - 1) 0#8, ?_, ?_⟩
    . rw [List.length_cons, List.length_replicate]
      omega
    . simp only [ofBytes, ofBytes_replicate_zero]
      simp

theorem safe_readAll_iff {α : Type} {limit : Nat}
    {read : Serializer → Except Fault (α × Serializer)} (hread : Noisy.Fading [] (noisy read))
    {fits : List Byte → Prop} (hfits : ∀ bytes, (noisy read).Safe bytes ↔ fits bytes)
    (store : α → List α → List α) (v : List α) (bytes : List Byte)
    : (noisy (readAll limit read store v)).Safe bytes ↔ ContainerFits limit fits read bytes := by
  have hletters : Noisy.Fading [] (Noisy.letters sizeofSizeT ofBytes) := .letters _ _
  have hbounded : Noisy.Local (Noisy.bounded limit (Noisy.letters sizeofSizeT ofBytes)) :=
    Noisy.Local.bounded hletters.isLocal
  rw [noisy_readAll, Noisy.safe_bind hbounded, Noisy.safe_bounded hletters.isLocal]
  rw [and_iff_right (Noisy.safe_letters _ _ _)]
  simp only [Noisy.yields_bounded hletters.isLocal]
  unfold ContainerFits
  constructor
  . intro h hle hlimit
    rw [← Noisy.safe_loop_iff hread.isLocal hfits store _ v]
    exact h _ _ ⟨hlimit, (Noisy.yields_letters_of_le hle).mpr ⟨rfl, rfl⟩⟩
  . rintro h size rest ⟨hlimit, hsize⟩
    by_cases hle : sizeofSizeT ≤ bytes.length
    . rw [Noisy.yields_letters_of_le hle] at hsize
      rw [← hsize.1] at hlimit ⊢
      rw [← hsize.2, Noisy.safe_loop_iff hread.isLocal hfits]
      exact h hle hlimit
    . rcases (yields_size_iff (by omega)).mp hsize with ⟨hrest, _⟩
      rw [hrest]
      exact (hread.loop store size v).safe

theorem determined_readAll_iff {α : Type} {limit : Nat}
    {read : Serializer → Except Fault (α × Serializer)} (hread : Noisy.Fading [] (noisy read))
    {store : α → List α → List α} (hstore : Noisy.Storing store) {settled : List Byte → Prop}
    (hsettled : ∀ bytes, (noisy read).Determined bytes ↔ settled bytes) (v : List α)
    (bytes : List Byte)
    : (noisy (readAll limit read store v)).Determined bytes
        ↔
      ContainerSettled limit settled read store v bytes := by
  have hletters : Noisy.Fading [] (Noisy.letters sizeofSizeT ofBytes) := .letters _ _
  have hlocal : Noisy.Local (Noisy.bounded limit (Noisy.letters sizeofSizeT ofBytes)) :=
    Noisy.Local.bounded hletters.isLocal
  have hyields {size : Nat} {rest : List Byte}
      : Noisy.Yields (Noisy.bounded limit (Noisy.letters sizeofSizeT ofBytes)) bytes size rest
          ↔
        size ≤ limit ∧ Noisy.Yields (Noisy.letters sizeofSizeT ofBytes) bytes size rest :=
    Noisy.yields_bounded hletters.isLocal
  have hloop := Noisy.determined_loop_iff hread hstore hsettled
  rw [noisy_readAll]
  unfold ContainerSettled
  by_cases hle : sizeofSizeT ≤ bytes.length
  . have hsize : (Noisy.bounded limit (Noisy.letters sizeofSizeT ofBytes)).Determined bytes :=
      Noisy.determined_bounded hletters.isLocal (Noisy.determined_letters hle)
    rw [Noisy.determined_bind_iff hlocal hsize]
    simp only [hyields, Noisy.yields_letters_of_le hle, hloop, Nat.not_lt_of_le hle,
      false_imp_iff, and_true]
    constructor
    . intro h hlimit
      exact h _ _ ⟨hlimit, rfl, rfl⟩
    . rintro h size rest ⟨hlimit, rfl, rfl⟩
      exact h hlimit
  . have hlt : bytes.length < sizeofSizeT := by omega
    have hsmall : sizePrefix bytes = ofBytes bytes :=
      congrArg ofBytes (List.take_of_length_le (Nat.le_of_lt hlt))
    rw [hsmall, List.drop_eq_nil_of_le (Nat.le_of_lt hlt)]
    have hleast {size : Nat} {rest : List Byte}
        (hy : (Noisy.bounded limit (Noisy.letters sizeofSizeT ofBytes)).Yields bytes size rest)
        : rest = [] ∧ ofBytes bytes ≤ size := by
      rcases (yields_size_iff hlt).mp (hyields.mp hy).2 with ⟨hrest, upper, _, hsize⟩
      exact ⟨hrest, by omega⟩
    by_cases hlimit : ofBytes bytes ≤ limit
    . rw [Noisy.determined_counted_iff hread hstore hlocal (fun _ _ hy => (hleast hy).1)
        (hyields.mpr ⟨hlimit, yields_least hlt⟩) fun _ _ hy => (hleast hy).2]
      rw [exists_greater_iff hlt, hloop]
      simp only [hlimit, hlt, true_imp_iff, noisy_readLoop]
    . have hbeyond (h : ofBytes bytes + 256 ^ bytes.length ≤ limit) : False :=
        hlimit (Nat.le_trans (Nat.le_add_right _ _) h)
      refine iff_of_true ?_ ⟨fun h => absurd h hlimit, fun _ h => absurd (hbeyond h) id⟩
      -- no size is allowed, so nothing is yielded
      intro v₁ v₂ rest₁ rest₂ h₁
      rcases (Noisy.yields_bind hlocal).mp h₁ with ⟨size, rest, hsize, _⟩
      exact absurd (Nat.le_trans (hleast hsize).2 (hyields.mp hsize).1) hlimit

theorem shrChecked_seq (h : Placement) (maxSize : CppType .type → Nat) (k : SeqKind)
    (t : CppType .type) (v : List t.carrier)
    : shrChecked h maxSize (.seq k t) v
        =
      readAll (if k = .vector then maxSize t else sizeLimit) (shrChecked h maxSize t t.default)
        (fun x v => v ++ [x]) (if k = .vector then [] else v) := by
  funext s
  cases k with
  | list | deque => exact (readAll_sizeLimit _ _ v s).symm
  | vector => exact shrChecked_vector h maxSize t v s

theorem shrChecked_set (h : Placement) (maxSize : CppType .type → Nat) (k : SetKind)
    (t : CppType .type) (v : List t.carrier)
    : shrChecked h maxSize (.set k t) v
        =
      readAll sizeLimit (elementChecked t t.default)
        (h.insert k.unique k.ordered t.less t.equal id) v := by
  funext s
  exact (readAll_sizeLimit _ _ v s).symm

theorem shrChecked_map (h : Placement) (maxSize : CppType .type → Nat) (k : MapKind)
    (a b : CppType .type) (v : List (a.carrier × b.carrier))
    : shrChecked h maxSize (.map k a b) v
        =
      readAll sizeLimit
        (pairChecked (shrChecked h maxSize a a.default) (shrChecked h maxSize b b.default))
        (h.insert k.unique k.ordered a.less a.equal Prod.fst) v := by
  funext s
  exact (readAll_sizeLimit _ _ v s).symm

section

variable {α β : Type} {readA : Serializer → Except Fault (α × Serializer)}
variable {readB : Serializer → Except Fault (β × Serializer)}

theorem fading_pair (ha : Noisy.Fading [] (noisy readA)) (hb : Noisy.Fading [] (noisy readB))
    : Noisy.Fading [] (noisy (pairChecked readA readB)) := by
  rw [noisy_pair]
  exact ha.bind fun a => hb.bind fun b => Noisy.Fading.ret [] (a, b)

theorem safe_pair_iff (ha : Noisy.Fading [] (noisy readA)) (hb : Noisy.Fading [] (noisy readB))
    {fitsA fitsB : List Byte → Prop} (hfitsA : ∀ bytes, (noisy readA).Safe bytes ↔ fitsA bytes)
    (hfitsB : ∀ bytes, (noisy readB).Safe bytes ↔ fitsB bytes) (bytes : List Byte)
    : (noisy (pairChecked readA readB)).Safe bytes
        ↔
      fitsA bytes ∧ ∀ x bytes', (noisy readA).Yields bytes x bytes' → fitsB bytes' := by
  rw [noisy_pair, Noisy.safe_pair_iff ha.isLocal hb.isLocal]
  simp only [hfitsA, hfitsB]

theorem determined_pair_iff (ha : Noisy.Fading [] (noisy readA))
    (hb : Noisy.Fading [] (noisy readB)) {settledA settledB : List Byte → Prop}
    (hsettledA : ∀ bytes, (noisy readA).Determined bytes ↔ settledA bytes)
    (hsettledB : ∀ bytes, (noisy readB).Determined bytes ↔ settledB bytes) (bytes : List Byte)
    : (noisy (pairChecked readA readB)).Determined bytes
        ↔
      settledA bytes ∧ ∀ x bytes', (noisy readA).Yields bytes x bytes' → settledB bytes' := by
  rw [noisy_pair, Noisy.determined_pair_iff ha hb]
  simp only [hsettledA, hsettledB]

end

section

variable (h : Placement) (maxSize : CppType .type → Nat)

theorem fading_shr (t : CppType p) (v : t.carrier)
    : Noisy.Fading [] (noisy (shrChecked h maxSize t v)) := by
  induction t with
  | scalar t => exact fading_output (.scalar t) v
  | string => exact fading_string v
  | seq k t ih =>
    have hseq := shrChecked_seq h maxSize k t v
    rw [hseq]
    exact fading_readAll (ih t.default) _ _
  | set k t ih =>
    have hset := shrChecked_set h maxSize k t v
    rw [hset]
    exact fading_readAll (fading_output t t.default) _ v
  | pair a b iha ihb => exact fading_pair (iha v.1) (ihb v.2)
  | map k a b iha ihb =>
    have hmap := shrChecked_map h maxSize k a b v
    rw [hmap]
    exact fading_readAll (fading_pair (iha a.default) (ihb b.default)) _ v
  | tuple ts ih => exact ih v
  | nil => exact Noisy.Fading.ret [] ()
  | cons t ts iht ihts => exact fading_pair (iht v.1) (ihts v.2)

theorem safe_shr_iff (t : CppType p) (v : t.carrier) (bytes : List Byte)
    : (noisy (shrChecked h maxSize t v)).Safe bytes ↔ Fits h maxSize t v bytes := by
  induction t generalizing bytes with
  | scalar t => exact safe_output_iff (.scalar t) v bytes
  | string => exact safe_output_iff .string v bytes
  | seq k t ih =>
    have hseq := shrChecked_seq h maxSize k t v
    rw [hseq]
    exact safe_readAll_iff (fading_shr h maxSize t t.default) (ih t.default) _ _ bytes
  | set k t ih =>
    have hset := shrChecked_set h maxSize k t v
    rw [hset]
    exact safe_readAll_iff (fading_output t t.default) (safe_output_iff t t.default) _ v bytes
  | pair a b iha ihb =>
    exact safe_pair_iff (fading_shr h maxSize a v.1) (fading_shr h maxSize b v.2) (iha v.1)
      (ihb v.2) bytes
  | map k a b iha ihb =>
    have hmap := shrChecked_map h maxSize k a b v
    have ha := fading_shr h maxSize a a.default
    have hb := fading_shr h maxSize b b.default
    rw [hmap]
    exact safe_readAll_iff (fading_pair ha hb)
      (safe_pair_iff ha hb (iha a.default) (ihb b.default)) _ v bytes
  | tuple ts ih => exact ih v bytes
  | nil => exact iff_of_true (Noisy.safe_ret () bytes) trivial
  | cons t ts iht ihts =>
    exact safe_pair_iff (fading_shr h maxSize t v.1) (fading_shr h maxSize ts v.2) (iht v.1)
      (ihts v.2) bytes

theorem determined_shr_iff (t : CppType p) (v : t.carrier) (bytes : List Byte)
    : (noisy (shrChecked h maxSize t v)).Determined bytes ↔ Settled h maxSize t v bytes := by
  induction t generalizing bytes with
  | scalar t => exact determined_output_iff (.scalar t) v bytes
  | string => exact determined_output_iff .string v bytes
  | seq k t ih =>
    have hseq := shrChecked_seq h maxSize k t v
    rw [hseq]
    exact determined_readAll_iff (fading_shr h maxSize t t.default) storing_push_back
      (ih t.default) _ bytes
  | set k t ih =>
    have hset := shrChecked_set h maxSize k t v
    rw [hset]
    exact determined_readAll_iff (fading_output t t.default) (h.insert_same_or_perm _ _ _ _ _)
      (determined_output_iff t t.default) v bytes
  | pair a b iha ihb =>
    exact determined_pair_iff (fading_shr h maxSize a v.1) (fading_shr h maxSize b v.2) (iha v.1)
      (ihb v.2) bytes
  | map k a b iha ihb =>
    have hmap := shrChecked_map h maxSize k a b v
    have ha := fading_shr h maxSize a a.default
    have hb := fading_shr h maxSize b b.default
    rw [hmap]
    exact determined_readAll_iff (fading_pair ha hb) (h.insert_same_or_perm _ _ _ _ _)
      (determined_pair_iff ha hb (iha a.default) (ihb b.default)) v bytes
  | tuple ts ih => exact ih v bytes
  | nil => exact iff_of_true (Noisy.determined_ret () bytes) trivial
  | cons t ts iht ihts =>
    exact determined_pair_iff (fading_shr h maxSize t v.1) (fading_shr h maxSize ts v.2) (iht v.1)
      (ihts v.2) bytes

end

-- what `read` returns and leaves does not depend on the content of the locals
structure Independent (read : Serializer → Except Fault (α × Serializer)) (bytes : List Byte)
    : Prop where
  defined : ∀ stack : Stack, read ⟨⟨bytes, stack⟩⟩ ≠ .error .undefined
  same : ∀ (stack stack' : Stack) v s v' s', read ⟨⟨bytes, stack⟩⟩ = .ok (v, s) →
    read ⟨⟨bytes, stack'⟩⟩ = .ok (v', s') → v = v' ∧ s.bytes = s'.bytes

theorem independent_iff {α : Type} (read : Serializer → Except Fault (α × Serializer))
    (bytes : List Byte)
    : Independent read bytes ↔ (noisy read).Safe bytes ∧ (noisy read).Determined bytes := by
  have hfault (stack : Stack)
      : noisy read bytes stack = .error .undefined
          ↔
        read ⟨⟨bytes, stack⟩⟩ = .error .undefined := by
    unfold noisy
    cases read ⟨⟨bytes, stack⟩⟩ with
    | error fault => simp [Except.map]
    | ok x => simp [Except.map]
  constructor
  . intro h
    refine ⟨fun stack hundefined => h.defined stack ((hfault stack).mp hundefined), ?_⟩
    intro v v' rest rest' hy hy'
    rcases yields_noisy.mp hy with ⟨stack, s, hread, hrest⟩
    rcases yields_noisy.mp hy' with ⟨stack', s', hread', hrest'⟩
    rcases h.same stack stack' v s v' s' hread hread' with ⟨hv, hbytes⟩
    exact ⟨hv, hrest.symm.trans (hbytes.trans hrest')⟩
  . rintro ⟨hsafe, hdetermined⟩
    refine ⟨fun stack hundefined => hsafe stack ((hfault stack).mpr hundefined), ?_⟩
    intro stack stack' v s v' s' hread hread'
    exact hdetermined v v' s.bytes s'.bytes (yields_noisy.mpr ⟨stack, s, hread, rfl⟩)
      (yields_noisy.mpr ⟨stack', s', hread', rfl⟩)

/--
Scalars depend on their bytes alone exactly if these are in the buffer, strings exactly if their
copy stays in the result. With containers it is the same for their sizes and elements, save for
elements that are not stored whatever they are and for vectors that are not read at all.
-/
theorem independent_iff_settled (h : Placement) (maxSize : CppType .type → Nat)
    (t : CppType .type) (v : t.carrier) (bytes : List Byte)
    : (Independent (elementChecked t v) bytes ↔ OutputFits t bytes ∧ OutputSettled t bytes) ∧
      (Independent (shrChecked h maxSize t v) bytes
          ↔
        Fits h maxSize t v bytes ∧ Settled h maxSize t v bytes) := by
  rw [independent_iff, safe_output_iff, determined_output_iff]
  rw [independent_iff, safe_shr_iff, determined_shr_iff]
  exact ⟨Iff.rfl, Iff.rfl⟩

-- half of a `uint16_t`, and a list that announces an element and ends there
theorem not_independent_short
    : ¬((∀ (t : CppType .type) v bytes,
          (∀ stack, ∃ r, outputChecked t v ⟨⟨bytes, stack⟩⟩ = .ok (true, r)) →
            Independent (elementChecked t v) bytes) ∧
        ∀ h maxSize k (t : CppType .type) v bytes,
          Independent (shrChecked h maxSize (.seq k t) v) bytes) ∧
      ¬Independent (elementChecked (.scalar .uint16) 0#16) [5] ∧
      ∀ maxSize, ¬Independent (shrChecked .front maxSize (.seq .list (.scalar .int8)) [])
        [1, 0, 0, 0, 0, 0, 0, 0] := by
  have hscalar : ¬Independent (elementChecked (.scalar .uint16) 0#16) [5] := by
    intro h
    have hvalue : 5#16 = 261#16 := (h.same (fun _ => 0) (fun _ => 1) _ _ _ _ rfl rfl).1
    exact absurd hvalue (by decide)
  refine ⟨?_, hscalar, ?_⟩
  . intro h
    exact hscalar (h.1 (.scalar .uint16) 0#16 [5] fun _ => ⟨_, rfl⟩)
  . intro maxSize h
    have hvalue : [0#8] = [1#8] := (h.same (fun _ => 0) (fun _ => 1) _ _ _ _ rfl rfl).1
    exact absurd hvalue (by decide)

end Serializer
end Fish
