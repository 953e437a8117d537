import FishRpc.Registry.Lemmas.RpcRegistry
import FishRpc.Rpc.Lemmas.ProtocolAccess

/-!
This module contains the ids of the registered providers. An id is the number of the providers
before it in 16 bits, so it is the index of its provider as long as there are at most 65536 of them.
One connection can register any number of providers.
-/

namespace Fish
namespace RpcRegistry

open Uring (Completion)

variable {s s' : RpcRegistry} {queueSize : Nat} {es : List Event}

-- each id is the index of its provider
def Identified (s : RpcRegistry) : Prop :=
  (∀ (i : Nat) (mes : ProviderMes), s.providers[i]? = some mes → mes.id.toNat = i) ∧
    (s.providers.map ProviderMes.id).Nodup

def Truncated (s : RpcRegistry) : Prop :=
  ∀ (i : Nat) (mes : ProviderMes), s.providers[i]? = some mes → mes.id = BitVec.ofNat 16 i

-- a registration finds less than 65536 providers
def Counted (s : RpcRegistry) : Event → Prop
  | .complete e raw around _ =>
    ∀ c readBuf, s.uring.called e = some (c, readBuf) → s.Registers c readBuf raw around →
      s.providers.length < 2 ^ 16
  | _ => True

theorem truncated_append (h : s.Truncated) {mes : ProviderMes}
    (hproviders : s'.providers = s.providers ++ [mes])
    (hid : mes.id = BitVec.ofNat 16 s.providers.length) : s'.Truncated := by
  intro i mes' hmes'
  rw [hproviders, List.getElem?_append] at hmes'
  split at hmes'
  . apply h i mes' hmes'
  . have hi : i - s.providers.length = 0 := by
      by_contra hne
      rw [List.getElem?_singleton, if_neg hne] at hmes'
      cases hmes'
    rw [hi] at hmes'
    cases hmes'
    rw [hid]
    congr 1
    omega

/--
An event registers at most one provider, with the truncated number of the providers before it.
-/
theorem step_providers {e : Event} (h : Step s e s')
    : (s'.providers = s.providers ∧ s.Counted e) ∨
      ∃ mes, s'.providers = s.providers ++ [mes] ∧
        mes.id = BitVec.ofNat 16 s.providers.length ∧
        (s.Counted e ↔ s.providers.length < 2 ^ 16) := by
  cases e with
  | accept fd clientAddr =>
    rcases step_accept h with ⟨_, rfl⟩
    exact Or.inl ⟨rfl, trivial⟩
  | addNewFd heap =>
    rcases step_addNewFd h with ⟨_, _, _, _, _, _, rfl⟩
    exact Or.inl ⟨rfl, trivial⟩
  | setAddr =>
    rcases step_setAddr h with ⟨_, _, _, _, _, rfl⟩
    exact Or.inl ⟨rfl, trivial⟩
  | beginRecv =>
    rcases step_beginRecv h with ⟨_, _, _, rfl⟩
    exact Or.inl ⟨rfl, trivial⟩
  | beginSend =>
    rcases step_beginSend h with ⟨_, _, _, rfl⟩
    exact Or.inl ⟨rfl, trivial⟩
  | complete e raw around now =>
    rcases complete_cases h with ⟨_, _, _, _, hcases⟩
    rcases hcases with ⟨hcalled, rfl⟩ | ⟨c, readBuf, hcalled, _, ⟨hnew, rfl⟩ | ⟨hnot, rfl⟩⟩
    . refine Or.inl ⟨rfl, ?_⟩
      intro c readBuf hcalled'
      rw [hcalled] at hcalled'
      cases hcalled'
    . refine Or.inr ⟨_, rfl, rfl, ?_⟩
      constructor
      . intro hcounted
        apply hcounted c readBuf hcalled hnew
      . intro hlt _ _ _ _
        exact hlt
    . refine Or.inl ⟨rfl, ?_⟩
      intro c' readBuf' hcalled' hnew
      rw [hcalled] at hcalled'
      cases hcalled'
      apply absurd hnew hnot

theorem truncated_step {e : Event} (htruncated : s.Truncated) (h : Step s e s')
    : s'.Truncated := by
  rcases step_providers h with ⟨heq, _⟩ | ⟨mes, heq, hid, _⟩
  . unfold Truncated
    rw [heq]
    apply htruncated
  . apply truncated_append htruncated heq hid

theorem identified_iff_length (h : s.Truncated)
    : s.Identified ↔ s.providers.length ≤ 2 ^ 16 := by
  constructor
  . intro hidentified
    by_contra hlt
    have hindex : 2 ^ 16 < s.providers.length := Nat.lt_of_not_le hlt
    have hmes := List.getElem?_eq_getElem hindex
    have hid := hidentified.1 _ _ hmes
    rw [h _ _ hmes] at hid
    cases hid
  . intro hle
    have hindex (i : Nat) (mes : ProviderMes) (hmes : s.providers[i]? = some mes)
        : mes.id.toNat = i := by
      rcases List.getElem?_eq_some_iff.mp hmes with ⟨hi, _⟩
      rw [h i mes hmes]
      rw [BitVec.toNat_ofNat]
      apply Nat.mod_eq_of_lt (by omega)
    refine ⟨hindex, ?_⟩
    apply List.pairwise_iff_getElem.mpr
    intro i j hi hj hij heq
    rw [List.getElem_map] at heq
    rw [List.getElem_map] at heq
    rw [List.length_map] at hi hj
    have hidi := hindex i _ (List.getElem?_eq_getElem hi)
    have hidj := hindex j _ (List.getElem?_eq_getElem hj)
    rw [heq] at hidi
    omega

theorem truncated_init (queueSize : Nat) : (init queueSize).Truncated := by
  intro i mes hmes
  cases hmes

theorem truncated_run (h : Run Step Run.Always (init queueSize) es s) : s.Truncated :=
  h.invariant (truncated_init queueSize) fun _ _ _ hs _ hstep => truncated_step hs hstep

theorem identified_step {e : Event} (htruncated : s.Truncated) (h : Step s e s')
    : s'.Identified ↔ s.Identified ∧ s.Counted e := by
  rw [identified_iff_length htruncated]
  rw [identified_iff_length (truncated_step htruncated h)]
  rcases step_providers h with ⟨heq, hcounted⟩ | ⟨mes, heq, _, hcounted⟩
  . rw [heq]
    exact (and_iff_left hcounted).symm
  . rw [heq, hcounted]
    rw [List.length_append, List.length_singleton]
    omega

/--
The ids of the registered providers are their indices, and so distinct, exactly if every
registration has found less than 65536 providers.
-/
theorem identified_iff (h : Run Step Run.Always (init queueSize) es s)
    : s.Identified ↔ Run Step Counted (init queueSize) es s := by
  have hstart : (init queueSize).Identified :=
    (identified_iff_length (truncated_init queueSize)).mpr (Nat.zero_le _)
  apply h.holds_iff (truncated_init queueSize) hstart
  . exact fun s e s' hs hstep => truncated_step hs hstep
  . exact fun s e s' hs hstep => identified_step hs hstep

theorem identified_iff_single
    : ∃ s,
        s.providers.length = 1 ∧
        (s.Identified ↔ Run Step Counted (init 8) (connection ++ registration) s) := by
  have hrun : (Run.execute step Run.Always (init 8) (connection ++ registration)).map
      (fun s => s.providers.map fun mes => mes.addr.port) = some [-1] := by decide +kernel
  rcases run_of_ports hrun with ⟨s, hs, hports⟩
  refine ⟨s, ?_, identified_iff hs⟩
  have hlength := congrArg List.length hports
  simpa using hlength

/-! ### Any number of registrations -/

-- the receive buffer starts with what is `unread`
structure Holding (b : Buffer) (unread : List Byte) : Prop where
  valid : b.Valid
  size : b.size = 1024
  writeIndex : b.writeIndex = unread.length
  unread : b.unread = unread

-- the only connection waits for bytes
structure Listening (s : RpcRegistry) (unread : List Byte) (undo : Option Protocol) : Prop where
  connected : s.uring.connections 5 = some 0
  recvQue : s.uring.recvQue = [5]
  ring : s.uring.ring = []
  freeNum : 0 < s.uring.freeNum
  fd : (s.uring.channels 0).fd = 5
  readBuf : Holding (s.uring.channels 0).readBuf unread
  undo : s.protocols.undoProtols 5 = undo

variable {b : Buffer} {unread bytes : List Byte} {undo : Option Protocol} {size : Nat}
  {protocol : Protocol}

theorem Holding.fits (h : Holding b unread) (hroom : (unread ++ bytes).length < 1024)
    : bytes.length ≤ b.disWrite.size := by
  have hsize := h.valid.disWrite_size
  rw [h.size, h.writeIndex] at hsize
  rw [List.length_append] at hroom
  omega

theorem Holding.receive (h : Holding b unread) (hroom : (unread ++ bytes).length < 1024)
    : Holding (b.receive bytes) (unread ++ bytes) where
  valid := h.valid.receive (h.fits hroom)
  size := h.size
  writeIndex := by
    have hpush := h.valid.bounded.push_writeIndex (Int.le_of_lt (h.valid.room (h.fits hroom)))
    rw [h.writeIndex] at hpush
    rw [List.length_append, Int.natCast_add]
    exact hpush
  unread := by
    rw [← h.unread]
    apply Buffer.unread_receive h.valid (h.fits hroom)

theorem Holding.disRead_size (h : Holding b unread) (hunread : unread ≠ [])
    : b.disRead.size ≠ 0 := by
  rw [← Buffer.length_unread]
  rw [h.unread]
  exact Nat.ne_of_gt (List.length_pos_of_ne_nil hunread)

-- an erase of nothing or of all that is unread
theorem Holding.eraseData (h : Holding b unread) (hunread : unread ≠ [])
    (hsize : size = 0 ∨ size = unread.length) : Holding (b.eraseData size) (unread.drop size) := by
  rcases hsize with rfl | rfl
  . rw [Buffer.eraseData_zero h.valid.bounded]
    . exact h
    . rw [h.unread]
      exact Nat.ne_of_gt (List.length_pos_of_ne_nil hunread)
  . have hle : unread.length ≤ b.unread.length := Nat.le_of_eq (congrArg List.length h.unread.symm)
    have hdisRead := h.valid.bounded.disRead_size
    rw [← Buffer.length_unread] at hdisRead
    rw [h.unread] at hdisRead
    have herase := Buffer.eraseData_eq h.valid.bounded hle
    rw [if_pos (by omega)] at herase
    refine ⟨h.valid.eraseData hle, ?_, ?_, ?_⟩
    . rw [herase]
      exact h.size
    . rw [herase, List.drop_length]
      rfl
    . rw [Buffer.unread_eraseData h.valid.bounded hle]
      rw [h.unread]

def window (s : Uring) : UringRequest where
  eventType := .read
  clientSocket := 5
  channel := 0
  ptr := ⟨0, .readBuf, (s.channels 0).readBuf.storage, (s.channels 0).readBuf.disWrite.offset⟩
  len := (s.channels 0).readBuf.disWrite.size

def receiving (s : RpcRegistry) : RpcRegistry :=
  { s with
    uring :=
      { s.uring with
        recvQue := []
        freeNum := s.uring.freeNum - 1
        ring := [window s.uring] } }

theorem Listening.beginRecv (h : Listening s unread undo) : Step s .beginRecv (receiving s) := by
  have hfree : 1 ≤ s.uring.freeNum := h.freeNum
  have hrecv : s.uring.beginRecv = .ok (receiving s).uring := by
    simp only [Uring.beginRecv, Uring.takeRecv, h.recvQue, List.length_singleton, hfree, if_true,
      List.foldlM_cons, List.foldlM_nil, Uring.submitRecv, h.connected, h.fd, h.ring]
    rfl
  show s.uring.beginRecv.toOption.map _ = _
  rw [hrecv]
  rfl

-- the completion of `receives`
def arrival (bytes : List Byte) (consumed : Nat) : Completion :=
  ⟨0, bytes.length, 0, fun i => bytes.getD i 0, consumed⟩

theorem data_arrival (bytes : List Byte) (consumed : Nat)
    : (List.range (arrival bytes consumed).res.toNat).map (arrival bytes consumed).data
        =
      bytes := by
  apply List.ext_getElem
  . simp [arrival]
  . intro i hi hi'
    simp [arrival, hi']

-- the channel after a completion has stored its bytes
def received (s : RpcRegistry) (bytes : List Byte) : Channel :=
  { s.uring.channels 0 with readBuf := (s.uring.channels 0).readBuf.receive bytes }

theorem length_lt (hroom : (unread ++ bytes).length < 1024) : bytes.length < 1024 := by
  rw [List.length_append] at hroom
  omega

theorem Listening.holding (h : Listening s unread undo) (hroom : (unread ++ bytes).length < 1024)
    : Holding (received s bytes).readBuf (unread ++ bytes) :=
  h.readBuf.receive hroom

theorem received_eq (s : RpcRegistry) (hlen : bytes.length < 1024) (consumed : Nat)
    : let e := arrival bytes consumed
      let ch := (s.uring.channels 0).store (window s.uring).ptr
        ((List.range e.res.toNat).map e.data)
      ch.alreadyRead (intToSize e.res) = received s bytes := by
  have hsize : intToSize (arrival bytes consumed).res = bytes.length := by
    apply intToSize_of_lt
    omega
  simp only [data_arrival, hsize]
  simp only [Channel.store, window, if_true]
  rfl

theorem arrival_pos {bytes : List Byte} (hbytes : bytes ≠ []) (consumed : Nat)
    : ¬((arrival bytes consumed).res ≤ 0 ∧ (arrival bytes consumed).errno = 0) := by
  have hpos := List.length_pos_of_ne_nil hbytes
  show ¬((bytes.length : Int) ≤ 0 ∧ _)
  omega

theorem append_ne_nil (hbytes : bytes ≠ []) : unread ++ bytes ≠ [] :=
  List.append_ne_nil_of_right_ne_nil unread hbytes

theorem Listening.called (h : Listening s unread undo) (hroom : (unread ++ bytes).length < 1024)
    (hbytes : bytes ≠ []) (consumed : Nat)
    : (receiving s).uring.called (arrival bytes consumed)
        =
      some (0, (received s bytes).readBuf) := by
  have hwindow
      : (receiving s).uring.ring[(arrival bytes consumed).index]? = some (window s.uring) := rfl
  have htype : (window s.uring).eventType = .read := rfl
  have hreceived := received_eq s (length_lt hroom) consumed
  change (((receiving s).uring.channels (window s.uring).channel).store _ _).alreadyRead _ = _
    at hreceived
  have hsize : (received s bytes).dispReadBuf.size ≠ 0 :=
    (h.holding hroom).disRead_size (append_ne_nil hbytes)
  unfold Uring.called
  simp only [hwindow, htype, hreceived]
  rw [if_neg (not_or.mpr ⟨arrival_pos hbytes consumed, hsize⟩)]
  rfl

-- the loop after the receive of `bytes`, before the coroutine is resumed
def resumed (s : RpcRegistry) (bytes : List Byte) (consumed : Nat) : Uring :=
  ((receiving s).uring.without 0).arrived (window s.uring) (arrival bytes consumed)

theorem Listening.complete (h : Listening s unread undo) (hroom : (unread ++ bytes).length < 1024)
    (hbytes : bytes ≠ []) (consumed : Nat)
    : ∃ uring, (receiving s).uring.complete (arrival bytes consumed) = .ok uring ∧
        uring.connections 5 = some 0 ∧ uring.recvQue = [5] ∧ uring.ring = [] ∧ 0 < uring.freeNum ∧
        uring.channels 0 = (received s bytes).eraseRead consumed := by
  have hchannel : (resumed s bytes consumed).channels 0 = received s bytes := by
    rw [← received_eq s (length_lt hroom) consumed]
    simp [resumed, Uring.arrived, Uring.stored, window]
    rfl
  have hsize : ((resumed s bytes consumed).channels 0).dispReadBuf.size ≠ 0 := by
    rw [hchannel]
    apply (h.holding hroom).disRead_size (append_ne_nil hbytes)
  have hconnected : ((receiving s).uring.without 0).connections 5 = some 0 := h.connected
  have hread := Uring.readCompletion_eq (r := window s.uring) (arrival bytes consumed) hconnected
  rw [if_neg (arrival_pos hbytes consumed)] at hread
  have hresume := congrArg (Except.map Uring.freeSlot) (Uring.resume_of_unread consumed hsize)
  refine ⟨_, hread.trans hresume, h.connected, ?_, rfl, ?_, ?_⟩
  . rw [hchannel]
    show [] ++ [(received s bytes).fd] = [5]
    rw [show (received s bytes).fd = 5 from h.fd]
    rfl
  . apply Nat.succ_pos
  . rw [← hchannel]
    exact Uring.modify_channels_self ((resumed s bytes consumed).useHandle 0) 0
      fun ch => ch.eraseRead consumed

-- what `readMes` makes of the bytes, however the memory around them looks
structure Reads (undo : Option Protocol) (view : List Byte) (size : Nat) (protocol : Protocol)
    : Prop where
  create : ∀ mem, (undo.getD (Protocol.new ⟨fun _ => 0⟩)).create view mem
    =
    ((size : Int), protocol)
  size : size = 0 ∨ size = view.length

theorem Listening.readMes (h : Listening s unread undo) (hroom : (unread ++ bytes).length < 1024)
    (hreads : Reads undo (unread ++ bytes) size protocol)
    : s.protocols.readMes 5 (received s bytes).readBuf ⟨fun _ => 0⟩ (fun _ => 0)
        =
      let ready := decide (protocol.handleState = .ready)
      (if ready then some protocol else none,
        ⟨Function.update s.protocols.undoProtols 5 (if ready then none else some protocol)⟩,
        (received s bytes).readBuf.eraseData size) := by
  rw [ProtocolManager.readMes_eq]
  unfold ProtocolManager.current
  have hsize : (max (size : Int) 0).toNat = size := by omega
  simp only [h.undo, (h.holding hroom).unread, hreads.create, hsize]

theorem Listening.consumed (h : Listening s unread undo) (hroom : (unread ++ bytes).length < 1024)
    (hreads : Reads undo (unread ++ bytes) size protocol)
    : s.protocols.consumed 5 (received s bytes).readBuf ⟨fun _ => 0⟩ (fun _ => 0) = size := by
  have hview : (received s bytes).readBuf.read (received s bytes).readBuf.disRead
      = unread ++ bytes := (h.holding hroom).unread
  have hsize : (max (size : Int) 0).toNat = size := by omega
  unfold ProtocolManager.consumed
  simp only [h.undo, hview, hreads.create, hsize]

-- the message asks for a registration
def Asking (protocol : Protocol) : Prop :=
  protocol.handleState = .ready ∧ protocol.getType.toNat = MsgType.provider.toNat ∧
    protocol.getId = 1

instance (protocol : Protocol) : Decidable (Asking protocol) := by
  unfold Asking
  infer_instance

theorem Listening.registers_iff (h : Listening s unread undo)
    (hroom : (unread ++ bytes).length < 1024)
    (hreads : Reads undo (unread ++ bytes) size protocol)
    : (receiving s).Registers 0 (received s bytes).readBuf ⟨fun _ => 0⟩ (fun _ => 0)
        ↔
      Asking protocol := by
  have hfd : ((receiving s).uring.channels 0).fd = 5 := h.fd
  have hprotocols : (receiving s).protocols = s.protocols := rfl
  unfold Registers Asking
  rw [hfd, hprotocols, h.readMes hroom hreads]
  by_cases hready : protocol.handleState = .ready
  . simp [hready]
  . simp [hready]

/--
Bytes that arrive are added to the unread ones, and the registry gets a new provider if they make up
a message that asks for it.
-/
theorem Listening.receives (h : Listening s unread undo)
    (hroom : (unread ++ bytes).length < 1024) (hbytes : bytes ≠ [])
    (hreads : Reads undo (unread ++ bytes) size protocol)
    : ∃ s', Run Step Run.Always s [.beginRecv, RpcRegistry.receives bytes] s' ∧
        Listening s' ((unread ++ bytes).drop size)
          (if protocol.handleState = .ready then none else some protocol) ∧
        s'.providers.length = s.providers.length + if Asking protocol then 1 else 0 := by
  have hfd : ((receiving s).uring.channels 0).fd = 5 := h.fd
  have hconsumed := h.consumed hroom hreads
  have hread := h.readMes hroom hreads
  have hregisters := h.registers_iff hroom hreads
  rcases h.complete hroom hbytes size with ⟨uring, hok, hconnected, hrecv, hring, hfree, hchannel⟩
  have hlisten (s' : RpcRegistry) (huring : s'.uring = uring)
      (hprotocols : s'.protocols.undoProtols 5
        = if protocol.handleState = .ready then none else some protocol)
      : Listening s' ((unread ++ bytes).drop size)
          (if protocol.handleState = .ready then none else some protocol) := by
    subst huring
    refine ⟨hconnected, hrecv, hring, hfree, ?_, ?_, hprotocols⟩
    . rw [hchannel]
      exact h.fd
    . rw [hchannel]
      apply (h.holding hroom).eraseData (append_ne_nil hbytes) hreads.size
  have hstep (s₁ : RpcRegistry)
      (hhandled : (receiving s).handleMessage 0 (received s bytes).readBuf ⟨fun _ => 0⟩
        (fun _ => 0) 0 = some s₁)
      : Step (receiving s) (RpcRegistry.receives bytes) { s₁ with uring := uring } := by
    have hindex : (arrival bytes 0).index < (receiving s).uring.ring.length := Nat.one_pos
    show (receiving s).complete (arrival bytes 0) ⟨fun _ => 0⟩ (fun _ => 0) 0 = _
    unfold RpcRegistry.complete
    rw [if_pos hindex]
    simp only [h.called hroom hbytes 0, hfd, hhandled]
    change Option.map _ ((receiving s).uring.complete
      (arrival bytes (s.protocols.consumed 5 _ _ _))).toOption = _
    rw [hconsumed, hok]
    rfl
  have hafter : ((receiving s).after 0 (received s bytes).readBuf ⟨fun _ => 0⟩
      (fun _ => 0)).protocols.undoProtols 5
        = if protocol.handleState = .ready then none else some protocol := by
    show ((s.protocols.readMes ((receiving s).uring.channels 0).fd _ _ _).2.1).undoProtols 5 = _
    rw [hfd, hread]
    simp
  by_cases hasking : Asking protocol
  . refine ⟨_, .snoc (.single h.beginRecv) trivial
      (hstep _ (handleMessage_registers (hregisters.mpr hasking))), hlisten _ rfl hafter, ?_⟩
    rw [if_pos hasking]
    simp [RpcRegistry.after, RpcRegistry.providerNew, receiving]
  . refine ⟨_, .snoc (.single h.beginRecv) trivial
      (hstep _ (handleMessage_not_registers (mt hregisters.mp hasking))), hlisten _ rfl hafter, ?_⟩
    rw [if_neg hasking]
    rfl

def content : List Byte := List.replicate 22 97

def blank : Memory := ⟨fun _ => 0, fun _ => 0⟩

-- the message after its header and after its content
def waiting : Protocol :=
  { (Protocol.new ⟨fun _ => 0⟩).copyHead header blank with handleState := .waitContent }

def finished : Protocol := (waiting.create content blank).2

theorem parsing_waiting : Protocol.Parsing ⟨fun _ => 0⟩ waiting := by
  simp [Protocol.Parsing, waiting]

theorem reads_header (hunread : Protocol.dfMagic ∉ unread)
    (hroom : (unread ++ header).length < 1024)
    : Reads none (unread ++ header) (unread ++ header).length waiting where
  create mem := by
    have hlen : (unread ++ header).length = unread.length + 16 := List.length_append
    have hcopy : (Protocol.new ⟨fun _ => 0⟩).copyHead header mem
        = (Protocol.new ⟨fun _ => 0⟩).copyHead header blank := by
      apply Protocol.copyHead_congr
      rw [Protocol.new_totalLength]
      decide
    have htotal : ((Protocol.new ⟨fun _ => 0⟩).copyHead header blank).totalLength.toNat = 16 := by
      decide +kernel
    have hmagic : Protocol.dfMagic :: header.tail = header := rfl
    have hlong : ¬header.tail.length + 1 < 16 := by decide
    have hcreate := Protocol.createFree_some (Protocol.new ⟨fun _ => 0⟩) header.tail mem hunread
    simp only [hmagic, hcopy, htotal, if_neg hlong] at hcreate
    rw [Option.getD_none]
    rw [Protocol.create_long _ _ (by omega)]
    rw [Protocol.new_handleState]
    apply hcreate.trans
    rw [hlen]
    rw [← Int.natCast_add]
    rw [sizeToInt_of_lt (by omega)]
    rfl
  size := Or.inr rfl

theorem reads_content : Reads (some waiting) content 0 finished where
  create mem := by
    have hinside : ∀ access ∈ waiting.accesses content blank, access.Inside content.length := by
      decide +kernel
    have hsize : (waiting.create content blank).1 = 0 := by decide +kernel
    rw [Option.getD_some]
    rw [← Protocol.create_congr parsing_waiting blank mem hinside]
    exact Prod.ext hsize rfl
  size := Or.inl rfl

theorem Listening.registration (h : Listening s unread none) (hunread : Protocol.dfMagic ∉ unread)
    (hroom : (unread ++ header).length < 1024)
    : ∃ s', Run Step Run.Always s registration s' ∧ Listening s' content none ∧
        s'.providers.length = s.providers.length + 1 := by
  rcases h.receives hroom (by decide) (reads_header hunread hroom) with
    ⟨s₁, hheader, hlisten₁, hlength₁⟩
  rw [List.drop_length] at hlisten₁
  have hcontent : ([] ++ content).length < 1024 := by decide
  rcases hlisten₁.receives hcontent (by decide) reads_content with ⟨s', hrun, hlisten, hlength⟩
  have hasking : Asking finished := by decide +kernel
  have hwaiting : ¬Asking waiting := by decide +kernel
  rw [if_pos hasking.1] at hlisten
  rw [if_pos hasking] at hlength
  rw [if_neg hwaiting] at hlength₁
  refine ⟨s', hheader.append hrun, hlisten, ?_⟩
  rw [hlength, hlength₁]

theorem Listening.registrations (h : Listening s content none) (n : Nat)
    : ∃ es s', Run Step Run.Always s es s' ∧ Listening s' content none ∧
        s'.providers.length = s.providers.length + n := by
  induction n with
  | zero => exact ⟨[], s, .nil, h, rfl⟩
  | succ n ih =>
    rcases ih with ⟨es, s₁, hrun₁, hlisten₁, hlength₁⟩
    rcases hlisten₁.registration (by decide) (by decide) with ⟨s', hrun, hlisten, hlength⟩
    refine ⟨es ++ RpcRegistry.registration, s', hrun₁.append hrun, hlisten, ?_⟩
    rw [hlength, hlength₁]
    rfl

theorem listening_connection
    : ∃ s, Run Step Run.Always (init 8) connection s ∧ Listening s [] none := by
  let s : RpcRegistry :=
    { init 8 with
      uring := ((Uring.init 8).opened 5 fun _ => 0).addReadRequest 5
      addr := Function.update (init 8).addr 0 TcpAddr.default
      accepting := .added 0 localhost
      peer := Function.update (init 8).peer 0 (some localhost) }
  let s₁ : RpcRegistry := { init 8 with accepting := .accepted 5 localhost }
  have haccept : Step (init 8) (.accept 5 localhost) s₁ := rfl
  have hadd : Step s₁ (.addNewFd fun _ => 0) s := rfl
  refine ⟨s, .snoc (.single haccept) trivial hadd, rfl, rfl, rfl, by decide, rfl, ?_, rfl⟩
  refine ⟨?_, rfl, rfl, rfl⟩
  apply Buffer.valid_new
  . decide
  . decide

theorem not_identified_overflow
    : ∃ es s, Run Step Run.Always (init 8) es s ∧ ¬s.Identified := by
  rcases listening_connection with ⟨s₀, hrun₀, hlisten₀⟩
  rcases hlisten₀.registration (by decide) (by decide) with ⟨s₁, hrun₁, hlisten₁, hlength₁⟩
  rcases hlisten₁.registrations (2 ^ 16) with ⟨es, s, hrun, _, hlength⟩
  refine ⟨_, s, (hrun₀.append hrun₁).append hrun, ?_⟩
  rw [identified_iff_length (truncated_run ((hrun₀.append hrun₁).append hrun))]
  omega

end RpcRegistry
end Fish
