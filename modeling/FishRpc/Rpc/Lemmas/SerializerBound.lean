import FishRpc.Rpc.Lemmas.SerializerChecked

/-!
This module contains the number of elements that containers are decoded to. A decoding of a value
decodes all containers in it; `decodes` lists them with the bytes in the buffer at that moment, the
size that these bytes announce, the iterations that the loop begins, the elements it leaves behind
and what ends it early. A vector makes all of its elements before it reads the first one. The reads end
as the listed decodings do.
-/

namespace Fish

structure Decode where
  available : Nat
  announced : Nat
  -- `max_size()` of a vector
  maxSize : Option Nat
  -- what reading the element with this number ends in
  fault : Nat → Option Fault
  iterations : Nat
  elements : Nat
  ending : Option Fault

-- `resize` throws
def Decode.Refused (d : Decode) : Prop :=
  ∃ maxSize, d.maxSize = some maxSize ∧ maxSize < d.announced

structure Decode.Within (d : Decode) : Prop where
  defined : d.ending ≠ some .undefined
  iterations : d.iterations ≤ d.available
  elements : d.elements ≤ d.available

-- `d` is how a read goes that ends in this way, with `count` the number of elements of a value
def Decode.Tells {β : Type} (d : Decode) (count : β → Nat) : Except Fault (β × Serializer) → Prop
  | .ok (v, _) => d.ending = none ∧ d.elements = count v
  | .error fault => d.ending = some fault

theorem Decode.Tells.map {β γ : Type} {d : Decode} {count : γ → Nat} {f : β → γ}
    {x : Except Fault (β × Serializer)} (h : d.Tells (fun v => count (f v)) x)
    : d.Tells count (x >>= fun r => .ok (f r.1, r.2)) := by
  cases x with
  | error fault => exact h
  | ok r => exact h

namespace Serializer

section

variable (read : Serializer → Except Fault (α × Serializer))

def faultAt : Nat → Serializer → Option Fault
  | 0, s =>
    match read s with
    | .ok _ => none
    | .error fault => some fault
  | i + 1, s =>
    match read s with
    | .ok (_, s) => faultAt i s
    | .error _ => none

def begun : Nat → Serializer → Nat
  | 0, _ => 0
  | size + 1, s =>
    match read s with
    | .ok (_, s) => begun size s + 1
    | .error _ => 1

-- the loop as far as it comes
def readLoopEnd (store : α → β → β) : Nat → β → Serializer → β × Option Fault
  | 0, v, _ => (v, none)
  | size + 1, v, s =>
    match read s with
    | .ok (t, s) => readLoopEnd store size (store t v) s
    | .error fault => (v, some fault)

-- the containers decoded by `inner` in the iterations of a loop
def loopDecodes (inner : Serializer → List Decode) : Nat → Serializer → List Decode
  | 0, _ => []
  | size + 1, s =>
    inner s ++
      match read s with
      | .ok (_, s) => loopDecodes inner size s
      | .error _ => []

def decode (maxSize : Option Nat) (store : α → β → β) (init : Nat → β) (count : β → Nat)
    (s : Serializer) : Decode :=
  let (size, s') := outputSize s
  let refused := maxSize.any (· < size)
  let (v, ending) := readLoopEnd read store size (init size) s'
  { available := s.bytes.length,
    announced := announced s,
    maxSize := maxSize,
    fault := fun i => faultAt read i s',
    iterations := if refused then 0 else begun read size s',
    elements := if refused then 0 else count v,
    ending := if refused then some .thrown else ending }

-- nothing is decoded in a vector that is refused
def elementDecodes (maxSize : Option Nat) (inner : Serializer → List Decode) (s : Serializer)
    : List Decode :=
  let (size, s) := outputSize s
  if maxSize.any (· < size) then [] else loopDecodes read inner size s

-- `inner` decodes what follows a value
def followedBy (inner : Serializer → List Decode) (s : Serializer) : List Decode :=
  match read s with
  | .ok (_, s) => inner s
  | .error _ => []

end

def decodes (h : Placement) (maxSize : CppType .type → Nat)
    : (t : CppType p) → Serializer → List Decode
  | .scalar _, _ => []
  | .string, _ => []
  | .seq .vector t, s =>
    let read := shrChecked h maxSize t t.default
    let store x iv := (iv.1 + 1, iv.2.set iv.1 x)
    let init size := (0, resize size t.default [])
    decode read (maxSize t) store init (fun iv => iv.2.length) s ::
      elementDecodes read (maxSize t) (decodes h maxSize t) s
  | .seq .list t, s | .seq .deque t, s =>
    let read := shrChecked h maxSize t t.default
    let push_back x (v : List t.carrier) := v ++ [x]
    decode read none push_back (fun _ => []) List.length s ::
      elementDecodes read none (decodes h maxSize t) s
  | .set k t, s =>
    let insert := h.insert k.unique k.ordered t.less t.equal id
    [decode (elementChecked t t.default) none insert (fun _ => []) List.length s]
  | .pair a b, s =>
    decodes h maxSize a s ++
      followedBy (shrChecked h maxSize a a.default) (decodes h maxSize b) s
  | .map k a b, s =>
    let read := pairChecked (shrChecked h maxSize a a.default) (shrChecked h maxSize b b.default)
    let insert := h.insert k.unique k.ordered a.less a.equal Prod.fst
    let inner s :=
      decodes h maxSize a s ++
        followedBy (shrChecked h maxSize a a.default) (decodes h maxSize b) s
    decode read none insert (fun _ => []) List.length s :: elementDecodes read none inner s
  | .tuple ts, s => decodes h maxSize ts s
  | .nil, _ => []
  | .cons t ts, s =>
    decodes h maxSize t s ++
      followedBy (shrChecked h maxSize t t.default) (decodes h maxSize ts) s

/-! ### How far a loop comes -/

section

variable {α β : Type} {read : Serializer → Except Fault (α × Serializer)} {store : α → β → β}
variable {size : Nat} {v : β} {s : Serializer}

-- the loop of `operator>>` leaves behind what it has stored, unless something ends it
theorem readLoopChecked_end (size : Nat) (v : β) (s : Serializer)
    : (readLoopChecked read store size v s).map Prod.fst
        =
      match readLoopEnd read store size v s with
      | (v, none) => .ok v
      | (_, some fault) => .error fault := by
  induction size generalizing v s with
  | zero => rfl
  | succ size ih =>
    show (read s >>= fun x => readLoopChecked read store size (store x.1 v) x.2).map Prod.fst = _
    unfold readLoopEnd
    cases read s with
    | error fault => rfl
    | ok x => exact ih (store x.1 v) x.2

theorem faultAt_of_ok (h : ∀ s, ∃ x, read s = .ok x) (i : Nat) (s : Serializer)
    : faultAt read i s = none := by
  induction i generalizing s with
  | zero =>
    rcases h s with ⟨x, hx⟩
    unfold faultAt
    rw [hx]
  | succ i ih =>
    rcases h s with ⟨x, hx⟩
    unfold faultAt
    rw [hx]
    apply ih

theorem readLoopEnd_eq_some_iff {fault : Fault}
    : (readLoopEnd read store size v s).2 = some fault
        ↔
      ∃ i < size, faultAt read i s = some fault := by
  induction size generalizing v s with
  | zero =>
    constructor
    . intro h
      cases h
    . rintro ⟨i, hi, _⟩
      exact absurd hi (Nat.not_lt_zero i)
  | succ size ih =>
    unfold readLoopEnd
    cases hread : read s with
    | error fault' =>
      have hzero : faultAt read 0 s = some fault' := by
        unfold faultAt
        rw [hread]
      have hsucc (i : Nat) : faultAt read (i + 1) s = none := by
        unfold faultAt
        rw [hread]
      constructor
      . intro h
        exact ⟨0, Nat.succ_pos size, hzero.trans h⟩
      . rintro ⟨i, _, hi⟩
        cases i with
        | zero => exact hzero.symm.trans hi
        | succ i =>
          rw [hsucc] at hi
          cases hi
    | ok x =>
      have hzero : faultAt read 0 s = none := by
        unfold faultAt
        rw [hread]
      have hsucc (i : Nat) : faultAt read (i + 1) s = faultAt read i x.2 := by
        rw [faultAt]
        rw [hread]
      show (readLoopEnd read store size (store x.1 v) x.2).2 = some fault ↔ _
      rw [ih]
      constructor
      . rintro ⟨i, hi, hfault⟩
        exact ⟨i + 1, Nat.succ_lt_succ hi, (hsucc i).trans hfault⟩
      . rintro ⟨i, hi, hfault⟩
        cases i with
        | zero =>
          rw [hzero] at hfault
          cases hfault
        | succ i => exact ⟨i, Nat.lt_of_succ_lt_succ hi, (hsucc i).symm.trans hfault⟩

-- an element that cannot be read is the last one
theorem begun_of_fault {i : Nat} {fault : Fault} (hi : i < size)
    (hfault : faultAt read i s = some fault) : begun read size s = i + 1 := by
  induction size generalizing i s with
  | zero => exact absurd hi (Nat.not_lt_zero i)
  | succ size ih =>
    cases i with
    | zero =>
      unfold faultAt at hfault
      unfold begun
      cases hread : read s with
      | error fault' => rfl
      | ok x =>
        rw [hread] at hfault
        cases hfault
    | succ i =>
      unfold faultAt at hfault
      unfold begun
      cases hread : read s with
      | error fault' =>
        rw [hread] at hfault
        cases hfault
      | ok x =>
        rw [hread] at hfault
        exact congrArg (· + 1) (ih (Nat.lt_of_succ_lt_succ hi) hfault)

theorem begun_of_none (h : ∀ i < size, faultAt read i s = none) : begun read size s = size := by
  induction size generalizing s with
  | zero => rfl
  | succ size ih =>
    have hzero := h 0 (Nat.succ_pos size)
    unfold faultAt at hzero
    unfold begun
    cases hread : read s with
    | error fault =>
      rw [hread] at hzero
      cases hzero
    | ok x =>
      apply congrArg (· + 1)
      apply ih
      intro i hi
      have hnext := h (i + 1) (Nat.succ_lt_succ hi)
      unfold faultAt at hnext
      rw [hread] at hnext
      exact hnext

theorem readLoopEnd_count_le (read : Serializer → Except Fault (α × Serializer)) {count : β → Nat}
    (hstore : ∀ x v, count (store x v) ≤ count v + 1)
    (size : Nat) (v : β) (s : Serializer)
    : count (readLoopEnd read store size v s).1 ≤ count v + begun read size s := by
  induction size generalizing v s with
  | zero => exact Nat.le_refl _
  | succ size ih =>
    unfold readLoopEnd begun
    cases read s with
    | error fault => exact Nat.le_add_right _ _
    | ok x =>
      have hrest := ih (store x.1 v) x.2
      have hone := hstore x.1 v
      show count (readLoopEnd read store size (store x.1 v) x.2).1 ≤ _ + (_ + 1)
      omega

theorem readLoopEnd_count_eq {count : β → Nat} (hstore : ∀ x v, count (store x v) = count v)
    (size : Nat) (v : β) (s : Serializer)
    : count (readLoopEnd read store size v s).1 = count v := by
  induction size generalizing v s with
  | zero => rfl
  | succ size ih =>
    unfold readLoopEnd
    cases read s with
    | error fault => rfl
    | ok x => exact (ih (store x.1 v) x.2).trans (hstore x.1 v)

end

/-! ### The reads of containers -/

section

variable {α β : Type} (read : Serializer → Except Fault (α × Serializer)) (maxSize : Option Nat)
variable (store : α → β → β) (init : Nat → β) (count : β → Nat) (s : Serializer)

theorem decode_available
    : (decode read maxSize store init count s).available = s.bytes.length := rfl

theorem decode_announced
    : (decode read maxSize store init count s).announced = announced s := rfl

theorem decode_refused_iff
    : (decode read maxSize store init count s).Refused
        ↔
      ∃ n, maxSize = some n ∧ n < announced s :=
  Iff.rfl

-- the loop begins
theorem decode_allowed (h : ¬maxSize.any (· < (outputSize s).1) = true)
    : let d := decode read maxSize store init count s
      let loopEnd := readLoopEnd read store (outputSize s).1 (init (outputSize s).1) (outputSize s).2
      d.iterations = begun read (outputSize s).1 (outputSize s).2 ∧
        d.elements = count loopEnd.1 ∧ d.ending = loopEnd.2 :=
  ⟨if_neg h, if_neg h, if_neg h⟩

theorem tells_decode
    : (decode read maxSize store init count s).Tells count
        (if maxSize.any (· < (outputSize s).1) then
          .error .thrown
        else
          readLoopChecked read store (outputSize s).1 (init (outputSize s).1) (outputSize s).2) := by
  by_cases h : maxSize.any (· < (outputSize s).1) = true
  . rw [if_pos h]
    exact if_pos h
  . rw [if_neg h]
    rcases decode_allowed read maxSize store init count s h with ⟨_, helements, hending⟩
    have hloop : (readLoopChecked read store (outputSize s).1 (init (outputSize s).1)
        (outputSize s).2).map Prod.fst = _ := readLoopChecked_end _ _ _
    rcases hend : readLoopEnd read store (outputSize s).1 (init (outputSize s).1)
      (outputSize s).2 with ⟨v, ending⟩
    rw [hend] at helements hending hloop
    cases hread : readLoopChecked read store (outputSize s).1 (init (outputSize s).1)
        (outputSize s).2 with
    | error fault =>
      rw [hread] at hloop
      cases ending with
      | none => cases hloop
      | some fault' =>
        cases hloop
        exact hending
    | ok r =>
      rw [hread] at hloop
      cases ending with
      | none =>
        cases hloop
        exact ⟨hending, helements⟩
      | some fault' => cases hloop

end

-- the first container that the read of a container decodes is the one that is read
theorem tells_decodes_seq (h : Placement) (maxSize : CppType .type → Nat) (k : SeqKind)
    (t : CppType .type) (s : Serializer)
    : ∃ d ds, decodes h maxSize (.seq k t) s = d :: ds ∧
        d.Tells List.length (shrChecked h maxSize (.seq k t) [] s) := by
  cases k with
  | list | deque => exact ⟨_, _, rfl, tells_decode _ none _ _ List.length s⟩
  | vector =>
    refine ⟨_, _, rfl, ?_⟩
    have htells := (tells_decode (shrChecked h maxSize t t.default) (some (maxSize t))
      (fun x iv => (iv.1 + 1, iv.2.set iv.1 x)) (fun size => (0, resize size t.default []))
      (fun iv => iv.2.length) s).map
    rw [Option.any_some] at htells
    show Decode.Tells _ List.length (resizeChecked (maxSize t) (outputSize s).1 t.default [] >>= _)
    unfold resizeChecked
    by_cases hlt : maxSize t < (outputSize s).1
    . rw [if_pos (decide_eq_true hlt)] at htells
      rw [if_pos hlt]
      exact htells
    . rw [if_neg (by simp [hlt])] at htells
      rw [if_neg hlt]
      exact htells

theorem tells_decodes_set (h : Placement) (maxSize : CppType .type → Nat) (k : SetKind)
    (t : CppType .type) (s : Serializer)
    : ∃ d ds, decodes h maxSize (.set k t) s = d :: ds ∧
        d.Tells List.length (shrChecked h maxSize (.set k t) [] s) :=
  ⟨_, _, rfl, tells_decode _ none _ _ List.length s⟩

theorem tells_decodes_map (h : Placement) (maxSize : CppType .type → Nat) (k : MapKind)
    (a b : CppType .type) (s : Serializer)
    : ∃ d ds, decodes h maxSize (.map k a b) s = d :: ds ∧
        d.Tells List.length (shrChecked h maxSize (.map k a b) [] s) :=
  ⟨_, _, rfl, tells_decode _ none _ _ List.length s⟩

/-! ### Containers -/

-- what is announced is how often the loop runs, unless an element cannot be read
structure Follows (d : Decode) : Prop where
  refused : d.Refused → d.iterations = 0 ∧ d.elements = 0 ∧ d.ending = some .thrown
  ending : ¬d.Refused → ∀ fault, d.ending = some fault ↔ ∃ i < d.announced, d.fault i = some fault
  last : ¬d.Refused → ∀ i < d.announced, d.fault i ≠ none → d.iterations = i + 1
  all : ¬d.Refused → (∀ i < d.announced, d.fault i = none) → d.iterations = d.announced
  made : ¬d.Refused → d.maxSize ≠ none → d.elements = d.announced
  stored : d.maxSize = none → d.elements ≤ d.iterations

theorem follows_decode {α β : Type} (read : Serializer → Except Fault (α × Serializer))
    {maxSize : Option Nat} {store : α → β → β} {init : Nat → β} {count : β → Nat}
    (hmade : maxSize ≠ none →
      (∀ x v, count (store x v) = count v) ∧ ∀ size, count (init size) = size)
    (hstored : maxSize = none →
      (∀ x v, count (store x v) ≤ count v + 1) ∧ ∀ size, count (init size) = 0) (s : Serializer)
    : Follows (decode read maxSize store init count s) := by
  have hrefused : (decode read maxSize store init count s).Refused
      ↔ maxSize.any (· < (outputSize s).1) = true := by
    rw [decode_refused_iff, outputSize_announced]
    cases maxSize with
    | none => simp
    | some n => simp
  have hsize := outputSize_announced s
  by_cases h : maxSize.any (· < (outputSize s).1) = true
  . have hyes := hrefused.mpr h
    constructor
    . intro _
      exact ⟨if_pos h, if_pos h, if_pos h⟩
    . exact fun hno => absurd hyes hno
    . exact fun hno => absurd hyes hno
    . exact fun hno => absurd hyes hno
    . exact fun hno => absurd hyes hno
    . intro hnone
      change maxSize = none at hnone
      rw [hnone] at h
      cases h
  . rcases decode_allowed read maxSize store init count s h with ⟨hiterations, helements, hending⟩
    have hannounced : (decode read maxSize store init count s).announced = (outputSize s).1 :=
      hsize.symm
    constructor
    . exact fun hyes => absurd (hrefused.mp hyes) h
    . intro _ fault
      rw [hending, hannounced]
      exact readLoopEnd_eq_some_iff
    . intro _ i hi hfault
      rw [hannounced] at hi
      rw [hiterations]
      rcases Option.ne_none_iff_exists'.mp hfault with ⟨fault, hfault⟩
      exact begun_of_fault hi hfault
    . intro _ hnone
      rw [hannounced] at hnone ⊢
      rw [hiterations]
      exact begun_of_none hnone
    . intro _ hsome
      rcases hmade hsome with ⟨hstore, hinit⟩
      rw [helements, hannounced, readLoopEnd_count_eq hstore, hinit]
    . intro hnone
      rcases hstored hnone with ⟨hstore, hinit⟩
      have hle := readLoopEnd_count_le read hstore (outputSize s).1
        (init (outputSize s).1) (outputSize s).2
      rw [hinit, Nat.zero_add] at hle
      rw [helements, hiterations]
      exact hle

theorem follows_stored {α γ : Type} (read : Serializer → Except Fault (α × Serializer))
    {store : α → List γ → List γ} (hstore : ∀ x v, (store x v).length ≤ v.length + 1)
    (s : Serializer) : Follows (decode read none store (fun _ => []) List.length s) :=
  follows_decode read (fun hsome => absurd rfl hsome) (fun _ => ⟨hstore, fun _ => rfl⟩) s

theorem follows_append {ds ds' : List Decode} (h : ∀ d ∈ ds, Follows d)
    (h' : ∀ d ∈ ds', Follows d) : ∀ d ∈ ds ++ ds', Follows d :=
  List.forall_mem_append.mpr ⟨h, h'⟩

section

variable {α : Type} (read : Serializer → Except Fault (α × Serializer))
variable {inner : Serializer → List Decode}

theorem follows_followedBy (hinner : ∀ s, ∀ d ∈ inner s, Follows d) (s : Serializer)
    : ∀ d ∈ followedBy read inner s, Follows d := by
  unfold followedBy
  cases read s with
  | error fault => exact List.forall_mem_nil _
  | ok x => exact hinner x.2

theorem follows_loopDecodes (hinner : ∀ s, ∀ d ∈ inner s, Follows d) (size : Nat) (s : Serializer)
    : ∀ d ∈ loopDecodes read inner size s, Follows d := by
  induction size generalizing s with
  | zero => exact List.forall_mem_nil _
  | succ size ih =>
    unfold loopDecodes
    apply follows_append (hinner s)
    cases read s with
    | error fault => exact List.forall_mem_nil _
    | ok x => exact ih x.2

theorem follows_elementDecodes (hinner : ∀ s, ∀ d ∈ inner s, Follows d) (maxSize : Option Nat)
    (s : Serializer) : ∀ d ∈ elementDecodes read maxSize inner s, Follows d := by
  unfold elementDecodes
  simp only
  split
  . exact List.forall_mem_nil _
  . apply follows_loopDecodes read hinner

end

theorem follows_decodes (h : Placement) (maxSize : CppType .type → Nat) (t : CppType p)
    (s : Serializer) : ∀ d ∈ decodes h maxSize t s, Follows d := by
  induction t generalizing s with
  | scalar t => exact List.forall_mem_nil _
  | string => exact List.forall_mem_nil _
  | seq k t ih =>
    cases k with
    | vector =>
      unfold decodes
      rw [List.forall_mem_cons]
      refine ⟨?_, follows_elementDecodes _ ih _ s⟩
      apply follows_decode
      . intro _
        exact ⟨fun x iv => List.length_set, fun size => length_resize size t.default []⟩
      . intro hnone
        cases hnone
    | list | deque =>
      unfold decodes
      rw [List.forall_mem_cons]
      refine ⟨?_, follows_elementDecodes _ ih _ s⟩
      apply follows_stored
      intro x v
      rw [List.length_append, List.length_singleton]
  | set k t ih =>
    unfold decodes
    rw [List.forall_mem_singleton]
    apply follows_stored
    exact h.length_insert_le k.unique k.ordered t.less t.equal id
  | pair a b iha ihb => exact follows_append (iha s) (follows_followedBy _ ihb s)
  | map k a b iha ihb =>
    have hinner := fun s => follows_append (iha s)
      (follows_followedBy (shrChecked h maxSize a a.default) ihb s)
    unfold decodes
    rw [List.forall_mem_cons]
    refine ⟨?_, follows_elementDecodes _ hinner _ s⟩
    apply follows_stored
    exact h.length_insert_le k.unique k.ordered a.less a.equal Prod.fst
  | tuple ts ih => exact ih s
  | nil => exact List.forall_mem_nil _
  | cons t ts iht ihts => exact follows_append (iht s) (follows_followedBy _ ihts s)

/--
A container is decoded with no more iterations and elements than there are bytes left exactly if it
is a vector that is refused, or if the bytes announce no greater size, or if an exception stops it
in time, which does not help a vector whose elements are there already. A string in it whose copy
leaves the result voids all of this.
-/
theorem decode_within_iff (h : Placement) (maxSize : CppType .type → Nat) (t : CppType p)
    (s : Serializer)
    : ∀ d ∈ decodes h maxSize t s,
        d.Within
          ↔
        d.Refused ∨
          (∀ i < d.announced, d.fault i ≠ some .undefined) ∧
            (d.announced ≤ d.available ∨
              d.maxSize = none ∧ ∃ i < d.available, d.fault i = some .thrown) := by
  intro d hd
  have hfollows := follows_decodes h maxSize t s d hd
  by_cases hrefused : d.Refused
  . rcases hfollows.refused hrefused with ⟨hiterations, helements, hending⟩
    refine iff_of_true ⟨?_, by omega, by omega⟩ (Or.inl hrefused)
    rw [hending]
    decide
  . have hdefined : d.ending ≠ some .undefined
        ↔ ∀ i < d.announced, d.fault i ≠ some .undefined := by
      rw [ne_eq, hfollows.ending hrefused]
      simp only [not_exists, not_and]
    have hbegun : d.iterations ≤ d.announced := by
      by_cases hall : ∀ i < d.announced, d.fault i = none
      . exact Nat.le_of_eq (hfollows.all hrefused hall)
      . simp only [not_forall] at hall
        rcases hall with ⟨i, hi, hfault⟩
        rw [hfollows.last hrefused i hi hfault]
        exact hi
    have helements : d.elements ≤ d.announced := by
      by_cases hsize : d.maxSize = none
      . exact Nat.le_trans (hfollows.stored hsize) hbegun
      . exact Nat.le_of_eq (hfollows.made hrefused hsize)
    simp only [hrefused, false_or]
    constructor
    . intro hwithin
      have hundefined := hdefined.mp hwithin.defined
      refine ⟨hundefined, ?_⟩
      by_cases hle : d.announced ≤ d.available
      . exact Or.inl hle
      . right
        -- more is announced than there is, so the elements are not all made or read
        have hsize : d.maxSize = none := by
          apply Classical.byContradiction
          intro hsome
          have hmade := hfollows.made hrefused hsome
          have hwithin := hwithin.elements
          omega
        refine ⟨hsize, ?_⟩
        apply Classical.byContradiction
        intro hnone
        have hwithin := hwithin.iterations
        by_cases hall : ∀ i < d.announced, d.fault i = none
        . have hevery := hfollows.all hrefused hall
          omega
        . simp only [not_forall] at hall
          rcases hall with ⟨i, hi, hfault⟩
          have hlast := hfollows.last hrefused i hi hfault
          rcases Option.ne_none_iff_exists'.mp hfault with ⟨fault, hfault⟩
          cases fault with
          | thrown => exact hnone ⟨i, by omega, hfault⟩
          | undefined => exact hundefined i hi hfault
    . rintro ⟨hundefined, hbound⟩
      have hending := hdefined.mpr hundefined
      rcases hbound with hle | ⟨hsize, i, hi, hfault⟩
      . exact ⟨hending, by omega, by omega⟩
      . by_cases hle : d.announced ≤ d.available
        . exact ⟨hending, by omega, by omega⟩
        . have hsome : d.fault i ≠ none := by
            rw [hfault]
            exact Option.some_ne_none _
          have hlast := hfollows.last hrefused i (by omega) hsome
          have hstored := hfollows.stored hsize
          exact ⟨hending, by omega, by omega⟩

-- eight bytes that announce nine elements, and the greatest number
def nine : Serializer := ⟨⟨[9, 0, 0, 0, 0, 0, 0, 0], fun _ => 0⟩⟩

def greatest : Serializer := ⟨⟨List.replicate 8 255, fun _ => 0⟩⟩

theorem decode_within_iff_nine
    : (∃ d, d ∈ decodes .front (fun _ => 2 ^ 63 - 1) (.seq .list (.scalar .int8)) nine ∧
        d.available = 8 ∧ d.iterations = 9 ∧ d.elements = 9 ∧ ¬d.Within) ∧
      ∃ d, d ∈ decodes .front (fun _ => 2 ^ 63 - 1) (.seq .vector (.scalar .int8)) greatest ∧
        d.available = 8 ∧ d.announced = 2 ^ 64 - 1 ∧ d.Within := by
  constructor
  . refine ⟨_, List.mem_cons_self, rfl, by decide +kernel, by decide +kernel, ?_⟩
    rw [decode_within_iff .front (fun _ => 2 ^ 63 - 1) (.seq .list (.scalar .int8)) nine _
      List.mem_cons_self]
    rintro (⟨_, hnone, _⟩ | ⟨_, hle | ⟨_, i, hi, hfault⟩⟩)
    . cases hnone
    . exact absurd hle (by decide +kernel)
    . -- nothing can happen to a number
      have hnone : faultAt (elementChecked (.scalar .int8) 0#8) i (outputSize nine).2 = none :=
        faultAt_of_ok (fun s => ⟨_, rfl⟩) i (outputSize nine).2
      cases hfault.symm.trans hnone
  . have hannounced : announced greatest = 2 ^ 64 - 1 := by decide +kernel
    refine ⟨_, List.mem_cons_self, ?_⟩
    rw [decode_within_iff .front (fun _ => 2 ^ 63 - 1) (.seq .vector (.scalar .int8)) greatest _
      List.mem_cons_self]
    rw [decode_available, decode_announced, decode_refused_iff, hannounced]
    exact ⟨rfl, rfl, Or.inl ⟨2 ^ 63 - 1, rfl, by decide⟩⟩

theorem not_decode_within_nine
    : ¬∀ h maxSize k (t : CppType .type) s, (∀ v, encode t v ≠ []) →
        ∀ d ∈ decodes h maxSize (.seq k t) s, d.Within := by
  intro h
  have hbytes : ∀ v : BitVec 8, encode (.scalar .int8) v ≠ [] := fun _ => List.cons_ne_nil _ _
  have hnine := h .front (fun _ => 2 ^ 63 - 1) .list (.scalar .int8) nine hbytes _
    List.mem_cons_self
  exact absurd hnine.iterations (by decide +kernel)

end Serializer
end Fish
