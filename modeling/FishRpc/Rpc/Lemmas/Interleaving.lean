import FishRpc.Lib.Interleaving
import FishRpc.Rpc.Impl.Server
import FishRpc.Rpc.Lemmas.ProtocolMemory
import FishRpc.Rpc.Lemmas.SharedManager

/-!
This module contains the independence of the connections that one table of unfinished messages
serves. Each arrival is followed by one call of `readMes`. What a connection gets out of its calls
does not depend on how its arrivals are interleaved with those of the others, as long as `create`
reads received bytes only. Otherwise it can depend on the memory that its message is allocated in, and
that depends on the order in which messages are allocated.
-/

namespace Fish
namespace SharedManager

-- an arrival with the memory that the call finds: `raw` is that of the message object if the arrival
-- is the first of a message
structure Delivery where
  arrival : Arrival
  raw : HeadMsg

-- what a call returns and the receive buffer before and after its `eraseRead`
structure Outcome where
  returned : Option Protocol
  received : Buffer
  erased : Buffer

structure Receiving where
  manager : SharedManager
  readBuf : Int → Buffer
  outcomes : Int → List Outcome

namespace Receiving

-- `calls` is what the table has served before
def start (raw : HeadMsg) (calls : List ReadCall) (readBuf : Int → Buffer) : Receiving where
  manager := (serve raw calls).1
  readBuf := readBuf
  outcomes _ := []

def receive (s : Receiving) (e : Int × Delivery) : Receiving :=
  let received := (s.readBuf e.1).receive e.2.arrival.chunk
  let read := s.manager.readMes e.1 received e.2.raw e.2.arrival.around
  let outcome :=
    { returned := read.1.map read.2.1.objects, received := received, erased := read.2.2 : Outcome }
  { manager := read.2.1
    readBuf := Function.update s.readBuf e.1 read.2.2
    outcomes := Function.update s.outcomes e.1 (s.outcomes e.1 ++ [outcome]) }

end Receiving

-- a connection that has its own table
structure Alone where
  protocol : Option Protocol
  readBuf : Buffer
  outcomes : List Outcome

def Alone.receive (c : Alone) (d : Delivery) : Alone :=
  let received := c.readBuf.receive d.arrival.chunk
  let read := ProtocolManager.readMes ⟨fun _ => c.protocol⟩ 0 received d.raw d.arrival.around
  { protocol := read.2.1.undoProtols 0
    readBuf := read.2.2
    outcomes :=
      c.outcomes ++ [{ returned := read.1, received := received, erased := read.2.2 : Outcome }] }

namespace Receiving

def seenFrom (s : Receiving) (fd : Int) : Alone where
  protocol := s.manager.values.undoProtols fd
  readBuf := s.readBuf fd
  outcomes := s.outcomes fd

theorem seenFrom_receive_self {s : Receiving} (h : WellFormed s.manager) (e : Int × Delivery)
    : (s.receive e).seenFrom e.1 = (s.seenFrom e.1).receive e.2 := by
  have hread := h.values_readMes e.1 ((s.readBuf e.1).receive e.2.arrival.chunk) e.2.raw
    e.2.arrival.around
  simp only [Prod.ext_iff] at hread
  simp only [seenFrom, receive, Alone.receive, hread, Function.update_self]
  simp only [ProtocolManager.readMes_eq, Function.update_self]
  rfl

theorem seenFrom_receive_of_ne {s : Receiving} (h : WellFormed s.manager) (e : Int × Delivery)
    {fd : Int} (hfd : fd ≠ e.1) : (s.receive e).seenFrom fd = s.seenFrom fd := by
  have hread := h.values_readMes e.1 ((s.readBuf e.1).receive e.2.arrival.chunk) e.2.raw
    e.2.arrival.around
  simp only [Prod.ext_iff] at hread
  simp only [seenFrom, receive, hread, Function.update_of_ne hfd]
  simp only [ProtocolManager.readMes_eq, Function.update_of_ne hfd]

theorem simulates_alone
    : Interleaving.Simulates receive (fun s => WellFormed s.manager) seenFrom Alone.receive := by
  constructor
  . intro s e h
    apply h.readMes
  . intro s e h
    funext fd
    unfold Interleaving.step
    by_cases hfd : fd = e.1
    . rw [hfd]
      rw [Function.update_self]
      apply seenFrom_receive_self h
    . rw [Function.update_of_ne hfd]
      apply seenFrom_receive_of_ne h e hfd

/-! ### Memory -/

-- the call reads received bytes only
def Inside (s : Receiving) (e : Int × Delivery) : Prop :=
  (s.manager.values.current e.1 e.2.raw).ReadsInside 15
    ((s.readBuf e.1).receive e.2.arrival.chunk).unread

end Receiving

def Delivery.chunk (d : Delivery) : List Byte := d.arrival.chunk

def Alone.Inside (c : Alone) (d : Delivery) : Prop :=
  (c.protocol.getD (Protocol.new d.raw)).ReadsInside 15 (c.readBuf.receive d.chunk).unread

-- two connections in states that differ in memory only that nobody has written
structure Alone.Alike (c c' : Alone) : Prop where
  protocol : Option.Rel (Protocol.Alike 15) c.protocol c'.protocol
  readBuf : c.readBuf = c'.readBuf
  outcomes : c.outcomes = c'.outcomes

theorem Alone.receive_eq (c : Alone) (d : Delivery)
    : c.receive d =
        let received := c.readBuf.receive d.chunk
        let created := (c.protocol.getD (Protocol.new d.raw)).create received.unread
          (ProtocolManager.memory received d.arrival.around)
        let erased := received.eraseData (max created.1 0).toNat
        if created.2.handleState = .ready then
          ⟨none, erased, c.outcomes ++ [⟨some created.2, received, erased⟩]⟩
        else
          ⟨some created.2, erased, c.outcomes ++ [⟨none, received, erased⟩]⟩ := by
  unfold Alone.receive Delivery.chunk
  have hcurrent : ProtocolManager.current ⟨fun _ => c.protocol⟩ 0 d.raw =
      c.protocol.getD (Protocol.new d.raw) := rfl
  simp only [ProtocolManager.readMes_eq, Function.update_self]
  rw [hcurrent]
  generalize (c.protocol.getD (Protocol.new d.raw)).create
    (c.readBuf.receive d.arrival.chunk).unread
    (ProtocolManager.memory (c.readBuf.receive d.arrival.chunk) d.arrival.around) = created
  by_cases hready : created.2.handleState = .ready
  . simp [hready]
  . simp [hready]

theorem Alone.Alike.receive {c c' : Alone} {d d' : Delivery} (h : c.Alike c')
    (hchunk : d.chunk = d'.chunk) (hinside : c.Inside d) : (c.receive d).Alike (c'.receive d') := by
  have hcurrent : Protocol.Alike 15 (c.protocol.getD (Protocol.new d.raw))
      (c'.protocol.getD (Protocol.new d'.raw)) := by
    rcases c with ⟨protocol, readBuf, outcomes⟩
    rcases c' with ⟨protocol', readBuf', outcomes'⟩
    cases h.protocol with
    | some hprotocol => exact hprotocol
    | none => exact Protocol.alike_new d.raw d'.raw
  have hcreate := hcurrent.create
    (ProtocolManager.memory (c.readBuf.receive d.chunk) d.arrival.around)
    (ProtocolManager.memory (c.readBuf.receive d.chunk) d'.arrival.around) (by omega) hinside
  rw [receive_eq, receive_eq, ← h.readBuf, ← hchunk, ← h.outcomes]
  simp only
  rw [← hcreate.1, ← hcreate.2.state]
  split
  . rename_i hready
    rw [← hcreate.2.eq_of_ready hready]
    exact ⟨.none, rfl, rfl⟩
  . exact ⟨.some hcreate.2, rfl, rfl⟩

theorem serve_started (raw : HeadMsg) (calls : List ReadCall) : (serve raw calls).1.values.Started := by
  unfold serve
  induction calls using List.reverseRecOn with
  | nil =>
    intro fd p hp
    cases hp
  | append_singleton calls call ih =>
    rw [List.foldl_append]
    have hwell : WellFormed (calls.foldl serveOne (new raw, [])).1 :=
      (serving_serve raw calls).wellFormed
    have hvalues := hwell.values_readMes call.fd call.readBuf call.raw call.around
    simp only [Prod.ext_iff] at hvalues
    show (((calls.foldl serveOne (new raw, [])).1.readMes call.fd call.readBuf call.raw
      call.around).2.1).values.Started
    rw [hvalues.2.1]
    exact ih.readMes call.fd call.readBuf call.raw call.around

namespace Receiving

/--
The calls of `readMes` for different sockets commute as long as they read received bytes only: two
interleavings with the same bytes for each socket have the same outcomes and leave the same table, up
to bytes that nobody has written, whatever memory the calls find.
-/
theorem readMes_interleaving (raw : HeadMsg) (calls : List ReadCall) (readBuf : Int → Buffer)
    (es es' : List (Int × Delivery))
    (h : ∀ fd, (Interleaving.own fd es).map Delivery.chunk =
      (Interleaving.own fd es').map Delivery.chunk)
    (hinside : Run.Each receive Inside (start raw calls readBuf) es)
    : let s := es.foldl receive (start raw calls readBuf)
      let s' := es'.foldl receive (start raw calls readBuf)
      s.outcomes = s'.outcomes
        ∧
      s.readBuf = s'.readBuf
        ∧
      ∀ fd, Option.Rel (Protocol.Alike 15) (s.manager.values.undoProtols fd)
        (s'.manager.values.undoProtols fd) := by
  intro s s'
  have hinit : WellFormed (start raw calls readBuf).manager := (serving_serve raw calls).wellFormed
  have halike : ∀ fd, (s.seenFrom fd).Alike (s'.seenFrom fd) := by
    intro fd
    have hs := congrFun (simulates_alone.foldl hinit es) fd
    have hs' := congrFun (simulates_alone.foldl hinit es') fd
    rw [Interleaving.run_apply] at hs hs'
    rw [show s.seenFrom fd = _ from hs, show s'.seenFrom fd = _ from hs']
    have hown := simulates_alone.each_own (Q := Alone.Inside) (fun _ _ => id) hinit hinside fd
    have hchunks : List.Forall₂ (fun d d' : Delivery => d.chunk = d'.chunk)
        (Interleaving.own fd es) (Interleaving.own fd es') := by
      rw [← List.forall₂_map_right_iff, ← List.forall₂_map_left_iff, List.forall₂_eq_eq_eq]
      exact h fd
    apply hown.foldl_rel (fun c c' d d' h hchunk hin => h.receive hchunk hin) hchunks
    refine ⟨?_, rfl, rfl⟩
    cases hfound : ((start raw calls readBuf).seenFrom fd).protocol with
    | none => exact .none
    | some p => exact .some ((serve_started raw calls).alike_refl hfound)
  refine ⟨?_, ?_, ?_⟩
  . funext fd
    exact (halike fd).outcomes
  . funext fd
    exact (halike fd).readBuf
  . exact fun fd => (halike fd).protocol

instance (s : Receiving) (e : Int × Delivery) : Decidable (Inside s e) :=
  inferInstanceAs (Decidable (Protocol.ReadsInside ..))

-- the memory is the one that the `k`-th message is allocated in
def delivery (k : Nat) (chunk : List Byte) : Delivery :=
  ⟨⟨chunk, fun _ => BitVec.ofNat 8 k⟩, ⟨fun _ => BitVec.ofNat 8 (48 + k)⟩⟩

-- two pieces on socket 4 and one on socket 5, whose message is allocated second or first
def fourFirst (head content piece : List Byte) : List (Int × Delivery) :=
  [(4, delivery 0 head), (5, delivery 1 piece), (4, delivery 2 content)]

def fiveFirst (head content piece : List Byte) : List (Int × Delivery) :=
  [(5, delivery 0 piece), (4, delivery 1 head), (4, delivery 2 content)]

theorem own_fourFirst (head content piece : List Byte) (fd : Int)
    : (Interleaving.own fd (fourFirst head content piece)).map Delivery.chunk =
        (Interleaving.own fd (fiveFirst head content piece)).map Delivery.chunk := by
  by_cases h₄ : (4 : Int) = fd
  . subst h₄
    rfl
  . by_cases h₅ : (5 : Int) = fd
    . subst h₅
      rfl
    . simp [Interleaving.own, fourFirst, fiveFirst, h₄, h₅]

def contents (s : Receiving) (fd : Int) : List (Option (List Byte)) :=
  (s.outcomes fd).map fun o => o.returned.map Protocol.content

theorem readMes_interleaving_two
    : let head : List Byte := [0xcc, 15, 15, 1, 4, 0, 1, 0, 9, 0, 0, 48, 48, 48, 50]
      let es := fourFirst head (List.replicate 15 104) head
      let es' := fiveFirst head (List.replicate 15 104) head
      let init := start ⟨fun _ => 0⟩ [] fun _ => Buffer.new 1024 fun _ => 0
      (es.foldl receive init).contents 4 = [none, some [104, 104]] ∧
        (es.foldl receive init).outcomes = (es'.foldl receive init).outcomes ∧
        (es.foldl receive init).readBuf = (es'.foldl receive init).readBuf := by
  intro head es es' init
  have hinside : Run.Each receive Inside init es := by
    refine ⟨?_, ?_, ?_, trivial⟩ <;> decide +kernel
  have hsame := readMes_interleaving ⟨fun _ => 0⟩ [] (fun _ => Buffer.new 1024 fun _ => 0) es es'
    (own_fourFirst _ _ _) hinside
  exact ⟨by decide +kernel, hsame.1, hsame.2.1⟩

-- the length byte 16 makes the last byte of `msgStr` a digit of the content length
theorem not_readMes_interleaving
    : ¬∀ (raw : HeadMsg) (calls : List ReadCall) (readBuf : Int → Buffer)
        (es es' : List (Int × Delivery)),
        (∀ fd, (Interleaving.own fd es).map Delivery.chunk =
          (Interleaving.own fd es').map Delivery.chunk) →
        (es.foldl receive (start raw calls readBuf)).outcomes =
          (es'.foldl receive (start raw calls readBuf)).outcomes := by
  intro hclaim
  have hsame := hclaim ⟨fun _ => 0⟩ [] (fun _ => Buffer.new 1024 fun _ => 0) _ _
    (own_fourFirst [0xcc, 16, 15, 1, 4, 0, 1, 0, 9, 0, 0, 0, 48, 48, 48, 48]
      (List.replicate 15 104) [0])
  have hcontent := congrArg (fun outcomes => (outcomes 4).map fun o : Outcome =>
    o.returned.map Protocol.content) hsame
  exact absurd hcontent (by decide +kernel)

end Receiving

end SharedManager
end Fish
