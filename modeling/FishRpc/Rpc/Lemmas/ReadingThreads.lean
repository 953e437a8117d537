import FishRpc.Rpc.Lemmas.Interleaving

/-!
This module contains `readMes` as several threads run it, one for each connection: the look into the
table under the shared lock, `create` without a lock and the change of the table under the unique
lock are steps of their own. However the steps of the threads follow each other, the calls have the
outcomes that they have one after the other.
-/

namespace Fish
namespace SharedManager

-- where the thread of a connection is in `readMes`
inductive ReadPhase where
  | outside
  | located (protocol : ProtocolPtr) (oldFlag : Bool) (around : Int → Byte)
  | created (protocol : ProtocolPtr) (oldFlag flag : Bool) (received : Buffer)

inductive ReadMove where
  | locate (d : Delivery)
  | create
  | settle

structure ReadingThreads where
  manager : SharedManager
  readBuf : Int → Buffer
  phase : Int → ReadPhase
  outcomes : Int → List Outcome

-- the moves of one call
def ReadMove.call (d : Delivery) : List ReadMove := [locate d, create, settle]

namespace ReadingThreads

-- `calls` is what the table has served before
def start (raw : HeadMsg) (calls : List ReadCall) (readBuf : Int → Buffer) : ReadingThreads where
  manager := (serve raw calls).1
  readBuf := readBuf
  phase _ := .outside
  outcomes _ := []

-- a thread that is at another place does nothing
def move (s : ReadingThreads) : Int × ReadMove → ReadingThreads
  | (fd, .locate d) =>
    match s.phase fd with
    | .outside =>
      let received := (s.readBuf fd).receive d.arrival.chunk
      let oldFlag := (s.manager.undoProtols fd).isSome
      let (protocol, manager) := s.manager.locate fd d.raw
      { s with
        manager
        readBuf := Function.update s.readBuf fd received
        phase := Function.update s.phase fd (.located protocol oldFlag d.arrival.around) }
    | _ => s
  | (fd, .create) =>
    match s.phase fd with
    | .located protocol oldFlag around =>
      let received := s.readBuf fd
      let view := received.disRead
      let mem := { past := fun i => received.data (view.offset + view.size + i), around := around }
      let (size, object) := (s.manager.objects protocol).create (received.read view) mem
      let flag := decide (object.getState = .ready)
      let size := max size 0
      { s with
        manager := s.manager.mutate protocol object
        readBuf := Function.update s.readBuf fd (received.eraseData size.toNat)
        phase := Function.update s.phase fd (.created protocol oldFlag flag received) }
    | _ => s
  | (fd, .settle) =>
    match s.phase fd with
    | .created protocol oldFlag flag received =>
      let returned := if flag then some (s.manager.objects protocol) else none
      let outcome := { returned, received, erased := s.readBuf fd : Outcome }
      { s with
        manager := s.manager.settle fd protocol flag oldFlag
        phase := Function.update s.phase fd .outside
        outcomes := Function.update s.outcomes fd (s.outcomes fd ++ [outcome]) }
    | _ => s

end ReadingThreads

/-! ### One connection with its own table -/

inductive AlonePhase where
  | outside
  | located (protocol : Protocol) (oldFlag : Bool) (around : Int → Byte)
  | created (protocol : Protocol) (flag : Bool) (received : Buffer)

structure AloneThread where
  alone : Alone
  phase : AlonePhase

namespace AloneThread

def move (c : AloneThread) : ReadMove → AloneThread
  | .locate d =>
    match c.phase with
    | .outside =>
      { alone := { c.alone with readBuf := c.alone.readBuf.receive d.arrival.chunk }
        phase := .located (c.alone.protocol.getD (Protocol.new d.raw)) c.alone.protocol.isSome
          d.arrival.around }
    | _ => c
  | .create =>
    match c.phase with
    | .located protocol oldFlag around =>
      let received := c.alone.readBuf
      let view := received.disRead
      let mem := { past := fun i => received.data (view.offset + view.size + i), around := around }
      let (size, object) := protocol.create (received.read view) mem
      { alone := { c.alone with
          protocol := if oldFlag then some object else c.alone.protocol
          readBuf := received.eraseData (max size 0).toNat }
        phase := .created object (decide (object.getState = .ready)) received }
    | _ => c
  | .settle =>
    match c.phase with
    | .created protocol flag received =>
      let returned := if flag then some protocol else none
      let outcome := { returned, received, erased := c.alone.readBuf : Outcome }
      { alone := { c.alone with
          protocol := if flag then none else some protocol
          outcomes := c.alone.outcomes ++ [outcome] }
        phase := .outside }
    | _ => c

-- a call that nothing comes between
theorem move_call (c : Alone) (d : Delivery)
    : (ReadMove.call d).foldl move ⟨c, .outside⟩ = ⟨c.receive d, .outside⟩ := by
  simp only [ReadMove.call, List.foldl_cons, List.foldl_nil, move, Alone.receive]
  simp only [ProtocolManager.readMes_eq, Function.update_self, decide_eq_true_eq]
  rfl

theorem move_calls (c : Alone) (ds : List Delivery)
    : (ds.flatMap ReadMove.call).foldl move ⟨c, .outside⟩ =
        ⟨ds.foldl Alone.receive c, .outside⟩ := by
  induction ds generalizing c with
  | nil => rfl
  | cons d ds ih =>
    rw [List.flatMap_cons, List.foldl_append]
    rw [move_call]
    rw [ih]
    rfl

end AloneThread
/-! ### The threads do not share messages -/

def ReadPhase.Uses : ReadPhase → ProtocolPtr → Prop
  | outside, _ => False
  | located protocol _ _, p => protocol = p
  | created protocol _ _ _, p => protocol = p

-- `oldFlag` says that the message is in the table
def ReadPhase.Agrees (stored : Option ProtocolPtr) : ReadPhase → Prop
  | outside => True
  | located protocol oldFlag _ => stored = if oldFlag then some protocol else none
  | created protocol oldFlag _ _ => stored = if oldFlag then some protocol else none

namespace ReadingThreads

variable {s s' : ReadingThreads} {fd : Int}

-- the message of a connection is the one in the table or the one that its thread works on
def Uses (s : ReadingThreads) (fd : Int) (p : ProtocolPtr) : Prop :=
  s.manager.undoProtols fd = some p ∨ (s.phase fd).Uses p

structure Apart (s : ReadingThreads) : Prop where
  allocated : ∀ fd p, s.Uses fd p → p < s.manager.next
  distinct : ∀ fd fd' p, s.Uses fd p → s.Uses fd' p → fd = fd'
  agrees : ∀ fd, (s.phase fd).Agrees (s.manager.undoProtols fd)

-- what a move of one connection may change
structure Moves (s : ReadingThreads) (fd : Int) (s' : ReadingThreads) : Prop where
  next_le : s.manager.next ≤ s'.manager.next
  undoProtols : ∀ fd', fd' ≠ fd → s'.manager.undoProtols fd' = s.manager.undoProtols fd'
  objects : ∀ p, ¬s.Uses fd p → p < s.manager.next → s'.manager.objects p = s.manager.objects p
  readBuf : ∀ fd', fd' ≠ fd → s'.readBuf fd' = s.readBuf fd'
  phase : ∀ fd', fd' ≠ fd → s'.phase fd' = s.phase fd'
  outcomes : ∀ fd', fd' ≠ fd → s'.outcomes fd' = s.outcomes fd'
  uses : ∀ p, s'.Uses fd p → s.Uses fd p ∨ (p = s.manager.next ∧ p < s'.manager.next)
  agrees : (s'.phase fd).Agrees (s'.manager.undoProtols fd)

theorem Moves.uses_of_ne (h : Moves s fd s') {fd' : Int} (hfd : fd' ≠ fd) {p : ProtocolPtr}
    (hp : s'.Uses fd' p) : s.Uses fd' p := by
  unfold Uses at hp ⊢
  rw [h.undoProtols fd' hfd, h.phase fd' hfd] at hp
  exact hp

theorem Apart.moves (hs : Apart s) (h : Moves s fd s') : Apart s' where
  allocated fd' p hp := by
    by_cases hfd : fd' = fd
    . subst hfd
      rcases h.uses p hp with hold | ⟨_, hlt⟩
      . exact Nat.lt_of_lt_of_le (hs.allocated fd' p hold) h.next_le
      . exact hlt
    . exact Nat.lt_of_lt_of_le (hs.allocated fd' p (h.uses_of_ne hfd hp)) h.next_le
  distinct fd₁ fd₂ p h₁ h₂ := by
    by_cases hfd₁ : fd₁ = fd
    . by_cases hfd₂ : fd₂ = fd
      . rw [hfd₁, hfd₂]
      . subst hfd₁
        have hother := h.uses_of_ne hfd₂ h₂
        rcases h.uses p h₁ with hold | ⟨heq, _⟩
        . exact hs.distinct fd₁ fd₂ p hold hother
        . exact absurd heq (Nat.ne_of_lt (hs.allocated fd₂ p hother))
    . have hother := h.uses_of_ne hfd₁ h₁
      by_cases hfd₂ : fd₂ = fd
      . subst hfd₂
        rcases h.uses p h₂ with hold | ⟨heq, _⟩
        . exact hs.distinct fd₁ fd₂ p hother hold
        . exact absurd heq (Nat.ne_of_lt (hs.allocated fd₁ p hother))
      . exact hs.distinct fd₁ fd₂ p hother (h.uses_of_ne hfd₂ h₂)
  agrees fd' := by
    by_cases hfd : fd' = fd
    . subst hfd
      exact h.agrees
    . rw [h.phase fd' hfd, h.undoProtols fd' hfd]
      exact hs.agrees fd'

theorem Moves.refl (hs : Apart s) (fd : Int) : Moves s fd s where
  next_le := Nat.le_refl _
  undoProtols _ _ := rfl
  objects _ _ _ := rfl
  readBuf _ _ := rfl
  phase _ _ := rfl
  outcomes _ _ := rfl
  uses _ hp := Or.inl hp
  agrees := hs.agrees fd

theorem moves_locate (hs : Apart s) (fd : Int) (d : Delivery)
    : Moves s fd (s.move (fd, .locate d)) := by
  simp only [move]
  split
  . cases hfound : s.manager.undoProtols fd with
    | none =>
      simp only [locate, hfound, makeShared, Option.isSome_none]
      constructor
      . exact Nat.le_succ _
      . exact fun _ _ => rfl
      . intro p _ hlt
        exact Function.update_of_ne (Nat.ne_of_lt hlt) ..
      . exact fun fd' hfd => Function.update_of_ne hfd ..
      . exact fun fd' hfd => Function.update_of_ne hfd ..
      . exact fun _ _ => rfl
      . rintro p (hp | hp)
        . rw [show s.manager.undoProtols fd = some p from hp] at hfound
          cases hfound
        . simp only [Function.update_self] at hp
          cases hp
          exact Or.inr ⟨rfl, Nat.lt_succ_self _⟩
      . simp [ReadPhase.Agrees, hfound]
    | some protocol =>
      simp only [locate, hfound, Option.isSome_some]
      constructor
      . exact Nat.le_refl _
      . exact fun _ _ => rfl
      . exact fun _ _ _ => rfl
      . exact fun fd' hfd => Function.update_of_ne hfd ..
      . exact fun fd' hfd => Function.update_of_ne hfd ..
      . exact fun _ _ => rfl
      . rintro p (hp | hp)
        . exact Or.inl (Or.inl hp)
        . simp only [Function.update_self] at hp
          cases hp
          exact Or.inl (Or.inl hfound)
      . simp [ReadPhase.Agrees, hfound]
  . exact Moves.refl hs fd

theorem moves_create (hs : Apart s) (fd : Int) : Moves s fd (s.move (fd, .create)) := by
  simp only [move]
  split
  . rename_i protocol oldFlag around hphase
    have huses : s.Uses fd protocol := Or.inr (by rw [hphase]; rfl)
    have hagrees := hs.agrees fd
    rw [hphase] at hagrees
    constructor
    . exact Nat.le_refl _
    . exact fun _ _ => rfl
    . intro p hp _
      refine Function.update_of_ne ?_ ..
      rintro rfl
      exact hp huses
    . exact fun fd' hfd => Function.update_of_ne hfd ..
    . exact fun fd' hfd => Function.update_of_ne hfd ..
    . exact fun _ _ => rfl
    . rintro p (hp | hp)
      . exact Or.inl (Or.inl hp)
      . simp only [Function.update_self] at hp
        cases hp
        exact Or.inl huses
    . simpa [ReadPhase.Agrees, mutate] using hagrees
  . exact Moves.refl hs fd

theorem settle_of_agrees {m : SharedManager} {protocol : ProtocolPtr} {oldFlag : Bool} (flag : Bool)
    (h : m.undoProtols fd = if oldFlag then some protocol else none)
    : m.settle fd protocol flag oldFlag
        =
      { m with
        undoProtols := Function.update m.undoProtols fd (if flag then none else some protocol) } := by
  cases oldFlag with
  | false => exact settle_new protocol flag h
  | true => exact settle_old flag h

theorem moves_settle (hs : Apart s) (fd : Int) : Moves s fd (s.move (fd, .settle)) := by
  simp only [move]
  split
  . rename_i protocol oldFlag flag received hphase
    have huses : s.Uses fd protocol := Or.inr (by rw [hphase]; rfl)
    have hagrees := hs.agrees fd
    rw [hphase] at hagrees
    rw [settle_of_agrees flag hagrees]
    constructor
    . exact Nat.le_refl _
    . exact fun fd' hfd => Function.update_of_ne hfd ..
    . exact fun _ _ _ => rfl
    . exact fun _ _ => rfl
    . exact fun fd' hfd => Function.update_of_ne hfd ..
    . exact fun fd' hfd => Function.update_of_ne hfd ..
    . rintro p (hp | hp)
      . simp only [Function.update_self] at hp
        split at hp
        . cases hp
        . cases hp
          exact Or.inl huses
      . simp [ReadPhase.Uses] at hp
    . simp [ReadPhase.Agrees]
  . exact Moves.refl hs fd

theorem moves_move (hs : Apart s) (e : Int × ReadMove) : Moves s e.1 (s.move e) := by
  rcases e with ⟨fd, m⟩
  cases m with
  | locate d => exact moves_locate hs fd d
  | create => exact moves_create hs fd
  | settle => exact moves_settle hs fd

/-! ### One call after the other -/

def seenFrom (s : ReadingThreads) (fd : Int) : AloneThread where
  alone :=
    { protocol := s.manager.values.undoProtols fd
      readBuf := s.readBuf fd
      outcomes := s.outcomes fd }
  phase :=
    match s.phase fd with
    | .outside => .outside
    | .located protocol oldFlag around => .located (s.manager.objects protocol) oldFlag around
    | .created protocol _ flag received => .created (s.manager.objects protocol) flag received

theorem seenFrom_of_ne (hs : Apart s) (h : Moves s fd s') {fd' : Int} (hfd : fd' ≠ fd)
    : s'.seenFrom fd' = s.seenFrom fd' := by
  have hobjects : ∀ p, s.Uses fd' p → s'.manager.objects p = s.manager.objects p := by
    intro p hp
    refine h.objects p ?_ (hs.allocated fd' p hp)
    exact fun hown => hfd (hs.distinct fd' fd p hp hown)
  have hstored : s'.manager.values.undoProtols fd' = s.manager.values.undoProtols fd' := by
    simp only [values, h.undoProtols fd' hfd]
    cases hfound : s.manager.undoProtols fd' with
    | none => rfl
    | some p =>
      simp only [Option.map_some]
      rw [hobjects p (Or.inl hfound)]
  unfold seenFrom
  rw [hstored, h.readBuf fd' hfd, h.outcomes fd' hfd, h.phase fd' hfd]
  cases hphase : s.phase fd' with
  | outside => rfl
  | located protocol oldFlag around =>
    simp only
    rw [hobjects protocol (Or.inr (by rw [hphase]; rfl))]
  | created protocol oldFlag flag received =>
    simp only
    rw [hobjects protocol (Or.inr (by rw [hphase]; rfl))]

theorem seenFrom_self (hs : Apart s) (fd : Int) (m : ReadMove)
    : (s.move (fd, m)).seenFrom fd = (s.seenFrom fd).move m := by
  have hagrees := hs.agrees fd
  cases m with
  | locate d =>
    cases hphase : s.phase fd with
    | outside =>
      cases hfound : s.manager.undoProtols fd with
      | none =>
        simp [move, AloneThread.move, seenFrom, hphase, hfound, locate, makeShared, values]
      | some protocol =>
        simp [move, AloneThread.move, seenFrom, hphase, hfound, locate, values]
    | located protocol oldFlag around => simp [move, AloneThread.move, seenFrom, hphase]
    | created protocol oldFlag flag received => simp [move, AloneThread.move, seenFrom, hphase]
  | create =>
    cases hphase : s.phase fd with
    | outside => simp [move, AloneThread.move, seenFrom, hphase]
    | located protocol oldFlag around =>
      rw [hphase] at hagrees
      cases oldFlag with
      | false =>
        have hfound : s.manager.undoProtols fd = none := hagrees
        simp [move, AloneThread.move, seenFrom, hphase, hfound, mutate, values]
      | true =>
        have hfound : s.manager.undoProtols fd = some protocol := hagrees
        simp [move, AloneThread.move, seenFrom, hphase, hfound, mutate, values]
    | created protocol oldFlag flag received => simp [move, AloneThread.move, seenFrom, hphase]
  | settle =>
    cases hphase : s.phase fd with
    | outside => simp [move, AloneThread.move, seenFrom, hphase]
    | located protocol oldFlag around => simp [move, AloneThread.move, seenFrom, hphase]
    | created protocol oldFlag flag received =>
      rw [hphase] at hagrees
      simp only [move, AloneThread.move, seenFrom, hphase, settle_of_agrees flag hagrees]
      cases flag with
      | false => simp [values]
      | true => simp [values]

theorem simulates_alone
    : Interleaving.Simulates move Apart seenFrom AloneThread.move := by
  constructor
  . intro s e hs
    exact hs.moves (moves_move hs e)
  . intro s e hs
    funext fd
    unfold Interleaving.step
    by_cases hfd : fd = e.1
    . rw [hfd]
      rw [Function.update_self]
      exact seenFrom_self hs e.1 e.2
    . rw [Function.update_of_ne hfd]
      exact seenFrom_of_ne hs (moves_move hs e) hfd

theorem apart_start (raw : HeadMsg) (calls : List ReadCall) (readBuf : Int → Buffer)
    : Apart (start raw calls readBuf) where
  allocated fd p hp := by
    rcases hp with hp | hp
    . exact (serving_serve raw calls).wellFormed.allocated fd p hp
    . exact absurd hp id
  distinct fd fd' p hp hp' := by
    rcases hp with hp | hp
    . rcases hp' with hp' | hp'
      . exact (serving_serve raw calls).wellFormed.distinct fd fd' p hp hp'
      . exact absurd hp' id
    . exact absurd hp id
  agrees _ := trivial

theorem outside_of_seenFrom {c : Alone} (h : s.seenFrom fd = ⟨c, .outside⟩)
    : s.phase fd = .outside := by
  have hphase : (s.seenFrom fd).phase = .outside := by rw [h]
  unfold seenFrom at hphase
  cases hcase : s.phase fd with
  | outside => rfl
  | located protocol oldFlag around => simp [hcase] at hphase
  | created protocol oldFlag flag received => simp [hcase] at hphase

/--
When the threads have run through the calls of their connections, however their steps were
interleaved, the outcomes, the buffers and the table are those of the same calls one after the other.
-/
theorem threads_serialize (raw : HeadMsg) (calls : List ReadCall) (readBuf : Int → Buffer)
    (es : List (Int × ReadMove)) (ds : List (Int × Delivery))
    (h : ∀ fd, Interleaving.own fd es = (Interleaving.own fd ds).flatMap ReadMove.call)
    : let s := es.foldl move (start raw calls readBuf)
      let s' := ds.foldl Receiving.receive (Receiving.start raw calls readBuf)
      (∀ fd, s.phase fd = .outside) ∧ s.outcomes = s'.outcomes ∧ s.readBuf = s'.readBuf ∧
        s.manager.values = s'.manager.values := by
  intro s s'
  have hinit : WellFormed (Receiving.start raw calls readBuf).manager :=
    (serving_serve raw calls).wellFormed
  have hview : ∀ fd, s.seenFrom fd = ⟨s'.seenFrom fd, .outside⟩ := by
    intro fd
    have hthreads := congrFun (simulates_alone.foldl (apart_start raw calls readBuf) es) fd
    have hcalls := congrFun (Receiving.simulates_alone.foldl hinit ds) fd
    rw [Interleaving.run_apply] at hthreads hcalls
    rw [h fd] at hthreads
    rw [show s.seenFrom fd = _ from hthreads, show s'.seenFrom fd = _ from hcalls]
    exact AloneThread.move_calls _ _
  refine ⟨fun fd => outside_of_seenFrom (hview fd), ?_, ?_, ?_⟩
  . funext fd
    apply congrArg (fun c => c.alone.outcomes) (hview fd)
  . funext fd
    apply congrArg (fun c => c.alone.readBuf) (hview fd)
  . simp only [values, ProtocolManager.mk.injEq]
    funext fd
    apply congrArg (fun c => c.alone.protocol) (hview fd)

-- two threads look into the table before either has changed it
theorem threads_serialize_two
    : let raw : HeadMsg := ⟨fun _ => 0⟩
      let d : List Byte → Delivery := fun chunk => ⟨⟨chunk, fun _ => 0⟩, raw⟩
      let head := d [0xcc, 15, 15, 1, 4, 0, 1, 0, 9, 0, 0, 48, 48, 48, 50]
      let readBuf := fun _ => Buffer.new 1024 fun _ => 0
      let es := [(4, .locate head), (5, .locate head), (5, .create), (4, .create), (5, .settle),
        (4, .settle)]
      let s := es.foldl move (start raw [] readBuf)
      let s' := [(4, head), (5, head)].foldl Receiving.receive (Receiving.start raw [] readBuf)
      s.outcomes = s'.outcomes ∧ s.manager.values = s'.manager.values := by
  intro raw d head readBuf es s s'
  have hserial := threads_serialize raw [] readBuf es [(4, head), (5, head)] ?_
  . exact ⟨hserial.2.1, hserial.2.2.2⟩
  . intro fd
    by_cases h₄ : (4 : Int) = fd
    . subst h₄
      rfl
    . by_cases h₅ : (5 : Int) = fd
      . subst h₅
        rfl
      . simp [Interleaving.own, es, h₄, h₅]

end ReadingThreads
end SharedManager
end Fish
