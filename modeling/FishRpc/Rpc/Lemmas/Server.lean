import FishRpc.Rpc.Lemmas.ProtocolMemory
import FishRpc.Rpc.Lemmas.ServerErase

/-!
This module contains the separation of the connections of a server. The table of unfinished messages
is keyed by the number of the socket and not cleared when a connection is closed, so a message that
a closed connection has left behind goes to the next connection with that number.
-/

namespace Fish

-- two buffers that hold the same bytes at the same place of any memory
structure Buffer.Alike (b b' : Buffer) : Prop where
  size : b.size = b'.size
  writeIndex : b.writeIndex = b'.writeIndex
  readIndex : b.readIndex = b'.readIndex
  unread : b.unread = b'.unread

namespace Buffer

variable {b b' : Buffer}

theorem Alike.valid (h : Alike b b') (hb : b.Valid) : b'.Valid where
  nonneg := h.readIndex ▸ hb.nonneg
  le := h.readIndex ▸ h.writeIndex ▸ hb.le
  lt := h.size ▸ h.writeIndex ▸ hb.lt
  small := h.size ▸ hb.small

theorem Alike.disWrite (h : Alike b b') : b.disWrite = b'.disWrite := by
  unfold Buffer.disWrite
  rw [h.size, h.writeIndex]

theorem alike_new (size : Nat) (heap heap' : Int → Byte) : Alike (new size heap) (new size heap') :=
  ⟨rfl, rfl, rfl, rfl⟩

theorem Alike.receive (h : Alike b b') (hb : b.Valid) {chunk : List Byte}
    (hfit : chunk.length ≤ b.disWrite.size) : Alike (b.receive chunk) (b'.receive chunk) where
  size := h.size
  writeIndex := by
    show sizeToInt (b.writeIndex + chunk.length) = sizeToInt (b'.writeIndex + chunk.length)
    rw [h.writeIndex]
  readIndex := h.readIndex
  unread := by
    have hfit' : chunk.length ≤ b'.disWrite.size := by
      rw [← h.disWrite]
      exact hfit
    rw [unread_receive hb hfit, unread_receive (h.valid hb) hfit', h.unread]

theorem Alike.eraseData (h : Alike b b') (hb : b.Valid) {len : Nat} (hlen : len ≤ b.unread.length)
    : Alike (b.eraseData len) (b'.eraseData len) := by
  have hlen' : len ≤ b'.unread.length := by
    rw [← h.unread]
    exact hlen
  have hunread : (b.eraseData len).unread = (b'.eraseData len).unread := by
    rw [unread_eraseData hb.bounded hlen, unread_eraseData (h.valid hb).bounded hlen', h.unread]
  refine ⟨?_, ?_, ?_, hunread⟩
  . unfold Buffer.eraseData
    rw [h.readIndex, h.writeIndex]
    split <;> exact h.size
  . unfold Buffer.eraseData
    rw [h.readIndex, h.writeIndex]
    split <;> rfl
  . unfold Buffer.eraseData
    rw [h.readIndex, h.writeIndex]
    split <;> rfl

end Buffer

def Connection.chunks (c : Connection) : List (List Byte) := c.arrivals.map Arrival.chunk

namespace Server

-- a connection that has its own table, all memory that nobody has written holds zeros
structure Alone where
  protocol : Protocol
  readBuf : Buffer
  returned : List Protocol

def Alone.receive (c : Alone) (chunk : List Byte) : Alone :=
  let readBuf := c.readBuf.receive chunk
  let (size, protocol) := c.protocol.create readBuf.unread ⟨fun _ => 0, fun _ => 0⟩
  let readBuf := readBuf.eraseData (max size 0).toNat
  if protocol.handleState = .ready then
    { protocol := .new zeros, readBuf := readBuf, returned := c.returned ++ [protocol] }
  else
    { protocol := protocol, readBuf := readBuf, returned := c.returned }

def alone (chunks : List (List Byte)) : Alone :=
  chunks.foldl Alone.receive ⟨.new zeros, Buffer.new 1024 fun _ => 0, []⟩

theorem alone_concat (chunks : List (List Byte)) (chunk : List Byte)
    : alone (chunks ++ [chunk]) = (alone chunks).receive chunk := by
  simp [alone]

-- the connection is in the state of one that is alone, up to memory that nobody has written
structure Matches (protocols : ProtocolManager) (fd : Int) (c : Connection) (a : Alone) : Prop where
  protocol : ∀ raw, Protocol.Alike 2 (protocols.current fd raw) a.protocol
  readBuf : c.readBuf.Alike a.readBuf
  returned : c.returned = a.returned

/-! ### Separation -/

/--
No connection is closed when the table holds a message under its number that has left `FREE`, and
what is read of a header or of the length it announces has been received.
-/
def Clean (s : Server) : HeadMsg × Event → Prop
  | (_, .close fd) => ∀ p ∈ s.protocols.undoProtols fd, p.handleState = .free
  | (raw, .read fd a) =>
    ∀ c ∈ s.connections fd,
      (s.protocols.current fd raw).ReadsInside 2 (c.readBuf.receive a.chunk).unread
  | (_, .new _ _) => True

structure Separated (s : Server) : Prop where
  sound : Sound s
  started : s.protocols.Started
  unused : ∀ fd, s.connections fd = none →
    ∀ p, s.protocols.undoProtols fd = some p → p.handleState = .free
  used : ∀ fd c, s.connections fd = some c → Matches s.protocols fd c (alone c.chunks)

theorem separated_init : Separated init where
  sound := sound_init
  started _ _ h := by cases h
  unused _ _ _ h := by cases h
  used _ _ h := by cases h

variable {s s' : Server} {fd : Int} {c : Connection}

-- one call, next to that of a connection which is alone
theorem Matches.receive {protocols : ProtocolManager} {alone : Alone} {raw : HeadMsg} {a : Arrival}
    (h : Matches protocols fd c alone) (hvalid : c.readBuf.Valid)
    (hfit : a.chunk.length ≤ c.readBuf.disWrite.size)
    (hle : protocols.consumed fd (c.readBuf.receive a.chunk) raw a.around ≤
      (c.readBuf.receive a.chunk).unread.length)
    (hinside : (protocols.current fd raw).ReadsInside 2 (c.readBuf.receive a.chunk).unread)
    : Matches (c.receive protocols fd raw a).2 fd (c.receive protocols fd raw a).1
        (alone.receive a.chunk) := by
  have hbuf := h.readBuf.receive hvalid hfit
  have hvalid' := hvalid.receive hfit
  rw [ProtocolManager.consumed_eq] at hle
  unfold Connection.receive Alone.receive
  simp only
  rw [ProtocolManager.readMes_eq]
  generalize c.readBuf.receive a.chunk = readBuf at *
  generalize alone.readBuf.receive a.chunk = readBuf' at *
  rw [← hbuf.unread]
  have hcreate := (h.protocol raw).create (ProtocolManager.memory readBuf a.around)
    ⟨fun _ => 0, fun _ => 0⟩ (by omega) hinside
  generalize (protocols.current fd raw).create readBuf.unread
    (ProtocolManager.memory readBuf a.around) = created at *
  generalize alone.protocol.create readBuf.unread ⟨fun _ => 0, fun _ => 0⟩ = created' at *
  rcases hcreate with ⟨hsize, halike⟩
  have herase := hbuf.eraseData hvalid' hle
  rw [hsize] at herase
  have hstate := halike.state
  by_cases hready : created.2.handleState = .ready
  . rw [if_pos (hstate ▸ hready)]
    have heq := halike.eq_of_ready hready
    simp only [hready, decide_true, if_true, Option.toList_some]
    refine ⟨?_, ?_, ?_⟩
    . intro raw'
      rw [ProtocolManager.current_of_none raw' (by simp)]
      exact Protocol.alike_new raw' zeros
    . rw [hsize]
      exact herase
    . simp only
      rw [h.returned, heq]
  . rw [if_neg (hstate ▸ hready)]
    simp only [hready, decide_false, Bool.false_eq_true, if_false, Option.toList_none,
      List.append_nil]
    refine ⟨?_, ?_, h.returned⟩
    . intro raw'
      rw [ProtocolManager.current_of_some raw' (Function.update_self ..)]
      exact halike
    . rw [hsize]
      exact herase

-- what a read leaves in the table
theorem receive_undoProtols {protocols : ProtocolManager} (raw : HeadMsg) (a : Arrival) {fd' : Int}
    (hfd : fd' ≠ fd)
    : (c.receive protocols fd raw a).2.undoProtols fd' = protocols.undoProtols fd' := by
  unfold Connection.receive
  simp only
  rw [ProtocolManager.readMes_eq]
  exact Function.update_of_ne hfd ..

theorem Matches.congr {protocols protocols' : ProtocolManager} {a : Alone}
    (h : Matches protocols fd c a) (heq : protocols'.undoProtols fd = protocols.undoProtols fd)
    : Matches protocols' fd c a where
  protocol raw := by
    unfold ProtocolManager.current
    rw [heq]
    exact h.protocol raw
  readBuf := h.readBuf
  returned := h.returned

-- a message that has not left `FREE` is like a new one
theorem Separated.current_unused (h : Separated s) (hfd : s.connections fd = none) (raw : HeadMsg)
    : Protocol.Alike 2 (s.protocols.current fd raw) (.new zeros) := by
  cases hfound : s.protocols.undoProtols fd with
  | none =>
    rw [ProtocolManager.current_of_none raw hfound]
    exact Protocol.alike_new raw zeros
  | some p =>
    rw [ProtocolManager.current_of_some raw hfound]
    rcases h.started fd p hfound with ⟨raw', hparsing⟩
    rw [hparsing.1 (h.unused fd hfd p hfound)]
    exact Protocol.alike_new raw' zeros

theorem Separated.new (h : Separated s) (heap : Int → Byte) (hfd : s.connections fd = none)
    (hsound : Sound ⟨Function.update s.connections fd (some (Connection.new heap)), s.protocols⟩)
    : Separated ⟨Function.update s.connections fd (some (Connection.new heap)), s.protocols⟩ where
  sound := hsound
  started := h.started
  unused fd' hfd' := by
    by_cases heq : fd' = fd
    . subst heq
      simp at hfd'
    . exact h.unused fd' (by simpa [heq] using hfd')
  used fd' c hfd' := by
    by_cases heq : fd' = fd
    . subst heq
      have hc : Connection.new heap = c := by simpa using hfd'
      subst hc
      exact ⟨h.current_unused hfd, Buffer.alike_new 1024 heap _, rfl⟩
    . exact h.used fd' c (by simpa [heq] using hfd')

theorem Separated.read {raw : HeadMsg} {a : Arrival} (h : Separated s)
    (hfd : s.connections fd = some c) (hfit : a.chunk.length ≤ c.readBuf.disWrite.size)
    (hinside : (s.protocols.current fd raw).ReadsInside 2 (c.readBuf.receive a.chunk).unread)
    (hsound : Sound ⟨Function.update s.connections fd (some (c.receive s.protocols fd raw a).1),
      (c.receive s.protocols fd raw a).2⟩)
    : Separated ⟨Function.update s.connections fd (some (c.receive s.protocols fd raw a).1),
        (c.receive s.protocols fd raw a).2⟩ where
  sound := hsound
  started := h.started.readMes fd _ raw a.around
  unused fd' hfd' := by
    by_cases heq : fd' = fd
    . subst heq
      simp at hfd'
    . rw [receive_undoProtols raw a heq]
      exact h.unused fd' (by simpa [heq] using hfd')
  used fd' c' hfd' := by
    by_cases heq : fd' = fd
    . subst heq
      have hc : (c.receive s.protocols fd' raw a).1 = c' := by simpa using hfd'
      subst hc
      have hchunks : (c.receive s.protocols fd' raw a).1.chunks = c.chunks ++ [a.chunk] := by
        simp [Connection.chunks, Connection.receive]
      rw [hchunks, alone_concat]
      have hle := h.sound.consumed_le hfd hfit raw
      exact (h.used fd' c hfd).receive (h.sound.valid fd' c hfd) hfit hle hinside
    . have hused := h.used fd' c' (by simpa [heq] using hfd')
      exact hused.congr (receive_undoProtols raw a heq)

theorem Separated.close (h : Separated s)
    (hfree : ∀ p ∈ s.protocols.undoProtols fd, p.handleState = .free)
    (hsound : Sound ⟨Function.update s.connections fd none, s.protocols⟩)
    : Separated ⟨Function.update s.connections fd none, s.protocols⟩ where
  sound := hsound
  started := h.started
  unused fd' hfd' := by
    by_cases heq : fd' = fd
    . subst heq
      exact hfree
    . exact h.unused fd' (by simpa [heq] using hfd')
  used fd' c hfd' := by
    by_cases heq : fd' = fd
    . subst heq
      simp at hfd'
    . exact h.used fd' c (by simpa [heq] using hfd')

theorem Separated.step {e : HeadMsg × Event} (h : Separated s) (hclean : Clean s e)
    (hstep : Step s e s') : Separated s' := by
  have hsound := h.sound.step hstep
  rcases e with ⟨raw, e⟩
  cases e with
  | new fd heap =>
    rcases step_new raw hstep with ⟨hfd, rfl⟩
    exact h.new heap hfd hsound
  | read fd a =>
    rcases step_read raw hstep with ⟨c, hfd, hfit, rfl⟩
    exact h.read hfd hfit (hclean c hfd) hsound
  | close fd =>
    rcases step_close raw hstep with ⟨_, _, rfl⟩
    exact h.close hclean hsound

theorem separated_of_run {es : List (HeadMsg × Event)} (h : Run Step Clean init es s)
    : Separated s :=
  h.invariant separated_init fun _ _ _ hs hclean hstep => hs.step hclean hstep

/--
As long as no connection is closed within a message and `create` reads received bytes only, what a
connection returns is a function of the bytes it has received, whatever else happens on the server
and whatever the memory held before.
-/
theorem returned_eq_of_chunks_eq {es es' : List (HeadMsg × Event)} {s s' : Server}
    (hrun : Run Step Clean init es s) (hrun' : Run Step Clean init es' s') {fd fd' : Int}
    {c c' : Connection} (hfd : s.connections fd = some c) (hfd' : s'.connections fd' = some c')
    (hchunks : c.chunks = c'.chunks) : c.returned = c'.returned := by
  rw [((separated_of_run hrun).used fd c hfd).returned]
  rw [hchunks]
  rw [((separated_of_run hrun').used fd' c' hfd').returned]

instance (s : Server) (e : HeadMsg × Event) : Decidable (Clean s e) :=
  match e with
  | (_, .close fd) =>
    inferInstanceAs (Decidable (∀ p ∈ s.protocols.undoProtols fd, p.handleState = .free))
  | (raw, .read fd a) =>
    inferInstanceAs (Decidable (∀ c ∈ s.connections fd,
      (s.protocols.current fd raw).ReadsInside 2 (c.readBuf.receive a.chunk).unread))
  | (_, .new _ _) => isTrue trivial

def returnedOn (s : Server) (fd : Int) : Option (List (List Byte) × List (List Byte)) :=
  (s.connections fd).map fun c => (c.chunks, c.returned.map Protocol.content)

-- `earlier` arrives on a connection that is closed, `later` on the next one, with other memory
def reuse (raw : HeadMsg) (earlier : List Byte) (later : List (List Byte)) : List (HeadMsg × Event) :=
  [(raw, .new 5 fun _ => raw.msgStr 0), (raw, .read 5 (arrival earlier)), (raw, .close 5)] ++
    (raw, .new 5 fun _ => raw.msgStr 0) :: later.map fun chunk => (raw, .read 5 (arrival chunk))

def letters (n : Nat) : List Byte := List.replicate n 65

-- the header of a message whose content is two letters, and the content with more behind it
def message : List (List Byte) :=
  [[0xcc, 15, 15, 1, 1, 0, 1, 0, 7, 0, 0, 48, 48, 48, 50], letters 15]

-- nothing came before in one run and junk in the other, and the memory is not the same
theorem returned_eq_of_chunks_eq_reuse
    : ∃ s s' c c',
        s.connections 5 = some c ∧ s'.connections 5 = some c' ∧
        Run Step Clean init (reuse zeros [0] message) s ∧
        Run Step Clean init (reuse ⟨fun _ => 255⟩ (letters 20) message) s' ∧
        c.chunks = c'.chunks ∧ c.returned.map Protocol.content = [letters 2] ∧
        c.returned = c'.returned := by
  have hrun : (Run.execute (fun s (e : HeadMsg × Event) => step e.1 s e.2) Clean init
      (reuse zeros [0] message)).bind (returnedOn · 5) = some (message, [letters 2]) := by
    decide +kernel
  have hrun' : (Run.execute (fun s (e : HeadMsg × Event) => step e.1 s e.2) Clean init
      (reuse ⟨fun _ => 255⟩ (letters 20) message)).bind (returnedOn · 5)
        = some (message, [letters 2]) := by
    decide +kernel
  rcases Option.bind_eq_some_iff.mp hrun with ⟨s, hs, hfound⟩
  rcases Option.bind_eq_some_iff.mp hrun' with ⟨s', hs', hfound'⟩
  rcases Option.map_eq_some_iff.mp hfound with ⟨c, hc, hreturned⟩
  rcases Option.map_eq_some_iff.mp hfound' with ⟨c', hc', hreturned'⟩
  rw [Prod.mk.injEq] at hreturned hreturned'
  have hchunks := hreturned.1.trans hreturned'.1.symm
  have hrun := Run.of_execute (fun _ _ _ hstep => hstep) hs
  have hrun' := Run.of_execute (fun _ _ _ hstep => hstep) hs'
  exact ⟨s, s', c, c', hc, hc', hrun, hrun', hchunks, hreturned.2,
    returned_eq_of_chunks_eq hrun hrun' hc hc' hchunks⟩

-- the header that the closed connection has received gets its content from the next one
theorem returned_ne_reuse
    : ∃ s s' c c',
        s.connections 5 = some c ∧ s'.connections 5 = some c' ∧
        Run Step Run.Always init (reuse zeros header [letters 15]) s ∧
        Run Step Run.Always init (reuse zeros [0] [letters 15]) s' ∧
        c.chunks = c'.chunks ∧ c.returned ≠ c'.returned := by
  have hrun : (Run.execute (fun s (e : HeadMsg × Event) => step e.1 s e.2) Run.Always init
      (reuse zeros header [letters 15])).bind (returnedOn · 5)
        = some ([letters 15], [letters 5]) := by
    decide +kernel
  have hrun' : (Run.execute (fun s (e : HeadMsg × Event) => step e.1 s e.2) Run.Always init
      (reuse zeros [0] [letters 15])).bind (returnedOn · 5) = some ([letters 15], []) := by
    decide +kernel
  rcases Option.bind_eq_some_iff.mp hrun with ⟨s, hs, hfound⟩
  rcases Option.bind_eq_some_iff.mp hrun' with ⟨s', hs', hfound'⟩
  rcases Option.map_eq_some_iff.mp hfound with ⟨c, hc, hreturned⟩
  rcases Option.map_eq_some_iff.mp hfound' with ⟨c', hc', hreturned'⟩
  rw [Prod.mk.injEq] at hreturned hreturned'
  refine ⟨s, s', c, c', hc, hc', Run.of_execute (fun _ _ _ hstep => hstep) hs,
    Run.of_execute (fun _ _ _ hstep => hstep) hs', hreturned.1.trans hreturned'.1.symm, ?_⟩
  intro heq
  rw [heq, hreturned'.2] at hreturned
  cases hreturned.2

end Server
end Fish
