import FishRpc.Rpc.Lemmas.ProtocolExit

/-!
This module contains the analysis of the parser states from which `READY` can still be reached. The
state `LACK` absorbs every further call, all other states can be completed.
-/

namespace Fish
namespace Protocol

def createAll (p : Protocol) (calls : List (List Byte × Memory)) : Protocol :=
  calls.foldl (fun p call => (p.create call.1 call.2).2) p

-- the call finds a header or a content that the view cuts off
def Incomplete (p : Protocol) (view : List Byte) (mem : Memory) : Prop :=
  15 ≤ view.length ∧
  match p.handleState with
  | .free =>
    match view.findIdx? (· = dfMagic) with
    | none => False
    | some idx =>
      (view.drop idx).length < (p.copyHead (view.drop idx) mem).totalLength.toNat
  | .waitContent => view.length + p.content.length < p.contentLengthOf mem
  | _ => False

def NoneIncomplete (p : Protocol) : List (List Byte × Memory) → Prop
  | [] => True
  | call :: calls =>
    ¬p.Incomplete call.1 call.2 ∧ NoneIncomplete (p.create call.1 call.2).2 calls

def Recoverable (p : Protocol) : Prop :=
  p.handleState = .ready ∨
  ∃ views : List (List Byte), ∀ calls : List (List Byte × Memory), calls.map Prod.fst = views →
    (createAll p calls).handleState = .ready

def Parsing (raw : HeadMsg) (p : Protocol) : Prop :=
  (p.handleState = .free → p = new raw) ∧ p.handleState ≠ .working

theorem parsing_new (raw : HeadMsg) : Parsing raw (new raw) :=
  ⟨fun _ => rfl, by simp [new_handleState]⟩

theorem create_lack_iff (p : Protocol) (view : List Byte) (mem : Memory)
    (hp : p.handleState ≠ .lack)
    : (p.create view mem).2.handleState = .lack ↔ p.Incomplete view mem := by
  have hexit := create_exit p view mem
  generalize p.create view mem = created at hexit ⊢
  unfold Incomplete
  cases hexit with
  | short hlen => simp [hp, Nat.not_le.mpr hlen]
  | noMagic hlen hstate hmagic => simp [hlen, hstate, findIdx?_of_not_mem hmagic]
  | @cutHeader junk rest hlen hstate hview hjunk hcut =>
    have hlength := copyHead_totalLength p view mem junk.length
    subst hview
    simp only [hlen, hstate, findIdx?_magic rest hjunk, hlength]
    simp [hcut]
  | @header junk rest hlen hstate hview hjunk hfit =>
    have hlength := copyHead_totalLength p view mem junk.length
    subst hview
    simp only [hlen, hstate, findIdx?_magic rest hjunk, hlength]
    simp [hfit]
  | cutContent hlen hstate hcut => simp [hlen, hstate, hcut]
  | content hlen hstate hfit => simp [hlen, hstate, hfit]
  | idle hlen hfree hwait =>
    cases hstate : p.handleState with
    | free => exact absurd hstate hfree
    | waitContent => exact absurd hstate hwait
    | lack => exact absurd hstate hp
    | ready => simp
    | working => simp

theorem createAll_invariant (Inv : Protocol → Prop)
    (step : ∀ p view mem, Inv p → Inv (p.create view mem).2) {p : Protocol} (h : Inv p)
    (calls : List (List Byte × Memory)) : Inv (createAll p calls) := by
  induction calls generalizing p with
  | nil => exact h
  | cons call calls ih => exact ih (step p call.1 call.2 h)

theorem createAll_stuck (p : Protocol) (calls : List (List Byte × Memory))
    (hp : p.handleState = .lack) : createAll p calls = p := by
  apply createAll_invariant (· = p) _ rfl calls
  intro q view mem hq
  rw [hq]
  apply create_stuck p view mem (by simp [hp])

theorem createAll_lack_iff (p : Protocol) (calls : List (List Byte × Memory))
    (hp : p.handleState ≠ .lack)
    : (createAll p calls).handleState ≠ .lack ↔ NoneIncomplete p calls := by
  induction calls generalizing p with
  | nil => simpa [createAll, NoneIncomplete] using hp
  | cons call calls ih =>
    have hlack := create_lack_iff p call.1 call.2 hp
    show (createAll (p.create call.1 call.2).2 calls).handleState ≠ .lack ↔ _
    unfold NoneIncomplete
    by_cases hcall : p.Incomplete call.1 call.2
    . have hnext := hlack.mpr hcall
      rw [createAll_stuck _ calls hnext]
      simp [hcall, hnext]
    . rw [ih _ (fun h => hcall (hlack.mp h))]
      simp [hcall]

theorem parsing_create {raw : HeadMsg} {p : Protocol} (h : Parsing raw p) (view : List Byte)
    (mem : Memory) : Parsing raw (p.create view mem).2 := by
  have hexit := create_exit p view mem
  generalize p.create view mem = created at hexit ⊢
  cases hexit with
  | short => exact h
  | noMagic => exact h
  | cutHeader => simp [Parsing]
  | header => simp [Parsing]
  | cutContent => simp [Parsing]
  | content => simp [Parsing]
  | idle => exact h

theorem parsing_createAll {raw : HeadMsg} {p : Protocol} (h : Parsing raw p)
    (calls : List (List Byte × Memory)) : Parsing raw (createAll p calls) :=
  createAll_invariant (Parsing raw) (fun _ view mem hp => parsing_create hp view mem) h calls

theorem unfilled_createAll {p : Protocol} (h : Unfilled p) (calls : List (List Byte × Memory))
    : Unfilled (createAll p calls) :=
  createAll_invariant Unfilled (fun _ view mem hp => unfilled_create hp view mem) h calls

/-! ### Ways out -/

def anyHeader : List Byte :=
  dfMagic :: dfHeadLength :: List.replicate 13 0

theorem create_ready {p : Protocol} (hp : p.handleState = .waitContent) {view : List Byte}
    (hview : 2 ^ 32 ≤ view.length) (mem : Memory)
    : (p.create view mem).2.handleState = .ready := by
  have hlt : p.contentLengthOf mem < 2 ^ 32 := BitVec.isLt _
  rw [create_long p mem (by omega)]
  simp only [hp]
  rw [createWaitContent_eq]
  simp only
  rw [if_neg (by omega)]

theorem create_anyHeader (raw : HeadMsg) (mem : Memory)
    : ((new raw).create anyHeader mem).2.handleState = .waitContent := by
  have htotal : (new raw).totalLength.toNat = 15 := by
    rw [new_totalLength]
    rfl
  have hcopy : ((new raw).copyHead anyHeader mem).totalLength = dfHeadLength := by
    unfold totalLength
    rw [HeadMsg.field_one _ 1 (by omega)]
    rw [copyHead_msgStr _ _ _ (by simp [htotal])]
    rfl
  have hcreate := @createFree_some (new raw) [] (dfHeadLength :: List.replicate 13 0) mem (by simp)
  rw [create_long _ mem (by decide)]
  simp only [new_handleState]
  unfold anyHeader at hcopy ⊢
  rw [List.nil_append] at hcreate
  rw [hcreate]
  simp only [hcopy]
  rfl

theorem exists_length_eq (n : Nat) : ∃ view : List Byte, view.length = n :=
  ⟨List.replicate n 0, List.length_replicate⟩

theorem recoverable_waitContent {p : Protocol} (hp : p.handleState = .waitContent)
    : Recoverable p := by
  rcases exists_length_eq (2 ^ 32) with ⟨view, hview⟩
  refine Or.inr ⟨[view], ?_⟩
  intro calls hcalls
  rcases calls with _ | ⟨call, _ | ⟨call', calls⟩⟩
  . simp at hcalls
  . have hcall : call.1 = view := by simpa using hcalls
    apply create_ready hp
    rw [hcall]
    omega
  . simp at hcalls

theorem recoverable_new (raw : HeadMsg) : Recoverable (new raw) := by
  rcases exists_length_eq (2 ^ 32) with ⟨view, hview⟩
  refine Or.inr ⟨[anyHeader, view], ?_⟩
  intro calls hcalls
  rcases calls with _ | ⟨call, _ | ⟨call', _ | ⟨call'', calls⟩⟩⟩
  . simp at hcalls
  . simp at hcalls
  . have hcall : call.1 = anyHeader ∧ call'.1 = view := by simpa using hcalls
    have hheader := create_anyHeader raw call.2
    rw [← hcall.1] at hheader
    apply create_ready hheader
    rw [hcall.2]
    omega
  . simp at hcalls

theorem not_recoverable_lack {p : Protocol} (hp : p.handleState = .lack) : ¬Recoverable p := by
  intro h
  rcases h with hready | ⟨views, hviews⟩
  . rw [hp] at hready
    cases hready
  . have mem : Memory := ⟨fun _ => 0, fun _ => 0⟩
    have hready := hviews (views.map fun view => (view, mem)) (by simp [Function.comp_def])
    rw [createAll_stuck p _ hp] at hready
    rw [hp] at hready
    cases hready

/--
`READY` is reached or can still be reached after any calls of `create` exactly if none of them was
given a cut off header or a cut off content.
-/
theorem recoverable_iff_noneIncomplete (raw : HeadMsg) (calls : List (List Byte × Memory))
    : Recoverable (createAll (new raw) calls) ↔ NoneIncomplete (new raw) calls := by
  rw [← createAll_lack_iff (new raw) calls (by simp [new_handleState])]
  have hparsing := parsing_createAll (parsing_new raw) calls
  cases hstate : (createAll (new raw) calls).handleState with
  | free =>
    have hnew := hparsing.1 hstate
    simpa [hnew] using recoverable_new raw
  | waitContent => simpa using recoverable_waitContent hstate
  | lack => simpa using not_recoverable_lack hstate
  | ready =>
    have hready : Recoverable (createAll (new raw) calls) := Or.inl hstate
    simpa using hready
  | working => exact absurd hstate hparsing.2

def cutHeader : List Byte :=
  List.replicate 5 0 ++ [dfMagic, dfHeadLength, dfHeadLength, dfVersion, 1, 0, 1, 0, 2, 0]

theorem not_recoverable_cutHeader
    : let mem : Memory := ⟨fun _ => 0, fun _ => 0⟩
      ¬Recoverable (createAll (new ⟨fun _ => 0⟩) [(cutHeader, mem)]) := by
  apply not_recoverable_lack
  decide

end Protocol
end Fish
