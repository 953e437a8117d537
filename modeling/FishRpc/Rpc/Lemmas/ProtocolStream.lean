import FishRpc.Lib.Run
import FishRpc.Rpc.Lemmas.ProtocolExit

/-!
This module contains the number of bytes that are dropped from a stream until `create` delivers its
message. The bytes in front of the header and the header are dropped with the call that finds it. The
content is never counted, it stays in front of the next call.
-/

namespace Fish
namespace Protocol

-- the parser and the number of bytes that have been dropped from the front of the stream
structure Feed where
  protocol : Protocol
  dropped : Nat

-- what the buffer holds in a call and the memory around it
structure ViewCall where
  size : Nat
  mem : Memory

namespace Feed

variable (stream : List Byte)

def start (raw : HeadMsg) : Feed := ⟨.new raw, 0⟩

def view (s : Feed) (call : ViewCall) : List Byte := (stream.drop s.dropped).take call.size

def create (s : Feed) (call : ViewCall) : Feed :=
  let (size, protocol) := s.protocol.create (s.view stream call) call.mem
  { protocol := protocol, dropped := s.dropped + (max size 0).toNat }

def feed (raw : HeadMsg) (calls : List ViewCall) : Feed := calls.foldl (create stream) (start raw)

def garbage : Option Nat := stream.findIdx? (· = dfMagic)

-- all bytes of a delivered message have been dropped and its content follows the header
def Accounted (s : Feed) : Prop :=
  s.protocol.getState = .ready →
    ∃ g, garbage stream = some g ∧
      s.dropped = g + s.protocol.totalLength.toNat + s.protocol.content.length ∧
      s.protocol.content
        =
      (stream.drop (g + s.protocol.totalLength.toNat)).take s.protocol.content.length

-- what `Accounted` amounts to
def Emptied (s : Feed) : Prop :=
  s.protocol.handleState = .ready →
    s.protocol.content = [] ∧
    ∀ g, garbage stream = some g → g + s.protocol.totalLength.toNat < 2 ^ 31

-- a call that delivers a message is told a content of no bytes and `int` holds the place of its end
def Empties (s : Feed) (call : ViewCall) : Prop :=
  s.protocol.handleState = .waitContent →
  15 ≤ (s.view stream call).length →
  s.protocol.contentLengthOf call.mem ≤ (s.view stream call).length →
    s.protocol.contentLengthOf call.mem = 0 ∧
    ∀ g, garbage stream = some g → g + s.protocol.totalLength.toNat < 2 ^ 31

-- the number that `create` returns for a header, as far as it is dropped
def counted (n : Nat) : Nat := (max (sizeToInt n) 0).toNat

inductive Parsed (raw : HeadMsg) : Feed → Prop where
  | free : Parsed raw (start raw)
  | lack {s : Feed} (hstate : s.protocol.handleState = .lack) : Parsed raw s
  | wait {s : Feed} {g : Nat} (hstate : s.protocol.handleState = .waitContent)
    (hcontent : s.protocol.content = []) (hgarbage : garbage stream = some g)
    (hdropped : s.dropped = counted (g + s.protocol.totalLength.toNat)) : Parsed raw s
  | ready {s : Feed} {g : Nat} (hstate : s.protocol.handleState = .ready)
    (hgarbage : garbage stream = some g)
    (hdropped : s.dropped = counted (g + s.protocol.totalLength.toNat)) : Parsed raw s

theorem counted_of_lt {n : Nat} (h : n < 2 ^ 31) : counted n = n := by
  unfold counted
  rw [sizeToInt_of_lt h]
  omega

theorem counted_lt (n : Nat) : counted n < 2 ^ 31 := by
  have hlt : sizeToInt n < 2 ^ 31 := Int.bmod_lt (by decide)
  unfold counted
  omega

variable {stream} {raw : HeadMsg} {s : Feed}

theorem create_eq (s : Feed) (call : ViewCall)
    : s.create stream call
        =
      let created := s.protocol.create (s.view stream call) call.mem
      ⟨created.2, s.dropped + (max created.1 0).toNat⟩ := rfl

theorem create_of_nonpos (call : ViewCall) {size : Int} {p : Protocol}
    (h : s.protocol.create (s.view stream call) call.mem = (size, p)) (hsize : size ≤ 0)
    : s.create stream call = ⟨p, s.dropped⟩ := by
  have hzero : (max size 0).toNat = 0 := by omega
  rw [create_eq]
  rw [h]
  simp only
  rw [hzero]
  rfl

theorem create_of_short (call : ViewCall) (h : (s.view stream call).length < 15)
    : s.create stream call = s := by
  apply create_of_nonpos call (create_short s.protocol call.mem h) (by omega)

theorem create_of_stuck (call : ViewCall)
    (hstate : s.protocol.handleState ≠ .free ∧ s.protocol.handleState ≠ .waitContent)
    : s.create stream call = s := by
  have hexit := create_exit s.protocol (s.view stream call) call.mem
  generalize hcreated : s.protocol.create (s.view stream call) call.mem = created at hexit
  cases hexit with
  | short | noMagic | idle => apply create_of_nonpos call hcreated (by omega)
  | cutHeader _ hfree => exact absurd hfree hstate.1
  | header _ hfree => exact absurd hfree hstate.1
  | cutContent _ hwait => exact absurd hwait hstate.2
  | content _ hwait => exact absurd hwait hstate.2

theorem garbage_of_view {junk rest : List Byte} {call : ViewCall}
    (hview : (start raw).view stream call = junk ++ dfMagic :: rest) (hjunk : dfMagic ∉ junk)
    : garbage stream = some junk.length := by
  have hsplit : stream = junk ++ dfMagic :: (rest ++ stream.drop call.size) := by
    unfold view start at hview
    rw [List.drop_zero] at hview
    have htake := List.take_append_drop call.size stream
    rw [hview] at htake
    simpa using htake.symm
  unfold garbage
  rw [hsplit]
  apply findIdx?_magic _ hjunk

-- everything that a call on a fresh message can do
theorem create_start (call : ViewCall)
    : (start raw).create stream call = start raw ∨
      ((start raw).create stream call).protocol.handleState = .lack ∨
      ∃ g, garbage stream = some g ∧
        ((start raw).create stream call).protocol.handleState = .waitContent ∧
        ((start raw).create stream call).protocol.content = [] ∧
        ((start raw).create stream call).dropped
          =
        counted (g + ((start raw).create stream call).protocol.totalLength.toNat) := by
  have hexit := create_exit (new raw) ((start raw).view stream call) call.mem
  generalize hcreated : (new raw).create ((start raw).view stream call) call.mem = created at hexit
  have hcreate : (start raw).create stream call = ⟨created.2, 0 + (max created.1 0).toNat⟩ := by
    rw [← hcreated]
    rfl
  have hwait : (new raw).handleState ≠ .waitContent := by simp [new_handleState]
  cases hexit with
  | short | noMagic | idle =>
    left
    apply create_of_nonpos call hcreated (by omega)
  | cutHeader =>
    right
    left
    rw [hcreate]
  | @header junk rest _ _ hview hjunk =>
    have hlength := copyHead_magic (new raw) call.mem hview
    right
    right
    refine ⟨junk.length, garbage_of_view hview hjunk, ?_⟩
    rw [hcreate]
    refine ⟨rfl, new_content raw, ?_⟩
    rw [← hlength]
    simp [counted, totalLength]
  | cutContent _ hstate => exact absurd hstate hwait
  | content _ hstate => exact absurd hstate hwait

-- everything that a call on a message that waits for its content can do
theorem create_wait (call : ViewCall) (hstate : s.protocol.handleState = .waitContent)
    (hcontent : s.protocol.content = []) (hlen : 15 ≤ (s.view stream call).length)
    : ∃ p : Protocol, s.create stream call = ⟨p, s.dropped⟩ ∧
        p.totalLength = s.protocol.totalLength ∧
        if (s.view stream call).length < s.protocol.contentLengthOf call.mem then
          p.handleState = .lack
        else
          p.handleState = .ready ∧
          p.content = (s.view stream call).take (s.protocol.contentLengthOf call.mem) := by
  have hexit := create_exit s.protocol (s.view stream call) call.mem
  generalize hcreated : s.protocol.create (s.view stream call) call.mem = created at hexit
  have htotal := setContentLength_field s.protocol
    (BitVec.ofInt 32 (s.protocol.announced call.mem)) (show 1 + 1 ≤ 12 by omega)
  have hfree : s.protocol.handleState ≠ .free := by simp [hstate]
  cases hexit with
  | short hshort => omega
  | noMagic _ hstate' => exact absurd hstate' hfree
  | cutHeader _ hstate' => exact absurd hstate' hfree
  | header _ hstate' => exact absurd hstate' hfree
  | cutContent _ _ hcut =>
    rw [hcontent, List.length_nil, Nat.add_zero] at hcut
    refine ⟨_, create_of_nonpos call hcreated (by omega), htotal, ?_⟩
    rw [if_pos hcut]
  | content _ _ hfit =>
    have htaken := taken_of_fit hcontent hfit
    rw [htaken, hcontent] at hcreated
    rw [List.length_nil, Nat.zero_add, subSize_self] at hcreated
    rw [hcontent, List.length_nil, Nat.add_zero] at hfit
    refine ⟨_, create_of_nonpos call hcreated (by decide), htotal, ?_⟩
    rw [if_neg (Nat.not_lt.mpr hfit)]
    exact ⟨rfl, rfl⟩
  | idle _ _ hwait => exact absurd hstate hwait

theorem Parsed.accounted_iff_emptied (h : Parsed stream raw s)
    : Accounted stream s ↔ Emptied stream s := by
  cases h with
  | free => simp [Accounted, Emptied, start, getState, new_handleState]
  | lack hstate => simp [Accounted, Emptied, getState, hstate]
  | wait hstate => simp [Accounted, Emptied, getState, hstate]
  | @ready _ g hstate hgarbage hdropped =>
    simp only [Accounted, Emptied, getState, hstate, forall_const]
    constructor
    . intro haccounted
      rcases haccounted with ⟨g', hg', hcount, -⟩
      rw [hgarbage] at hg'
      cases hg'
      have hlt := counted_lt (g + s.protocol.totalLength.toNat)
      have hfit : g + s.protocol.totalLength.toNat < 2 ^ 31 := by omega
      rw [counted_of_lt hfit] at hdropped
      refine ⟨List.eq_nil_of_length_eq_zero (by omega), ?_⟩
      intro g' hg'
      rw [hgarbage] at hg'
      cases hg'
      apply hfit
    . intro hemptied
      refine ⟨g, hgarbage, ?_, ?_⟩
      . rw [hdropped]
        rw [counted_of_lt (hemptied.2 g hgarbage)]
        simp [hemptied.1]
      . simp [hemptied.1]

theorem Parsed.create (h : Parsed stream raw s) (call : ViewCall)
    : Parsed stream raw (s.create stream call) := by
  by_cases hlen : 15 ≤ (s.view stream call).length
  . cases h with
    | free =>
      rcases create_start call with hstart | hlack | ⟨g, hgarbage, hstate, hcontent, hdropped⟩
      . rw [hstart]
        apply Parsed.free
      . apply Parsed.lack hlack
      . apply Parsed.wait hstate hcontent hgarbage hdropped
    | lack hstate =>
      rw [create_of_stuck call (by simp [hstate])]
      apply Parsed.lack hstate
    | @wait _ g hstate hcontent hgarbage hdropped =>
      rcases create_wait call hstate hcontent hlen with ⟨p, hcreate, htotal, hp⟩
      rw [hcreate]
      split at hp
      . apply Parsed.lack hp
      . apply Parsed.ready hp.1 hgarbage
        rw [htotal]
        apply hdropped
    | ready hstate hgarbage hdropped =>
      rw [create_of_stuck call (by simp [hstate])]
      apply Parsed.ready hstate hgarbage hdropped
  . rw [create_of_short call (by omega)]
    apply h

theorem Parsed.emptied_iff (h : Parsed stream raw s) (call : ViewCall)
    : Emptied stream (s.create stream call) ↔ Emptied stream s ∧ Empties stream s call := by
  by_cases hlen : 15 ≤ (s.view stream call).length
  . cases h with
    | free =>
      have hstart : Emptied stream (start raw) ∧ Empties stream (start raw) call := by
        simp [Emptied, Empties, start, new_handleState]
      simp only [hstart, and_self, iff_true]
      rcases create_start call with hsame | hlack | ⟨g, _, hstate, _⟩
      . rw [hsame]
        apply hstart.1
      . simp [Emptied, hlack]
      . simp [Emptied, hstate]
    | lack hstate =>
      rw [create_of_stuck call (by simp [hstate])]
      simp [Empties, hstate]
    | @wait _ g hstate hcontent _ _ =>
      rcases create_wait call hstate hcontent hlen with ⟨p, hcreate, htotal, hp⟩
      rw [hcreate]
      split at hp
      . have hmore : ¬s.protocol.contentLengthOf call.mem ≤ (s.view stream call).length := by omega
        simp [Emptied, Empties, hstate, hp, hmore]
      . have hfits : s.protocol.contentLengthOf call.mem ≤ (s.view stream call).length := by omega
        have hnonempty : s.view stream call ≠ [] := by
          intro hnil
          rw [hnil] at hlen
          cases hlen
        simp [Emptied, Empties, hstate, hp, hfits, hlen, htotal, hnonempty]
    | ready hstate _ _ =>
      rw [create_of_stuck call (by simp [hstate])]
      simp [Empties, hstate]
  . rw [create_of_short call (by omega)]
    simp [Empties, hlen]

theorem parsed_feed (raw : HeadMsg) (calls : List ViewCall)
    : Parsed stream raw (feed stream raw calls) := by
  apply (Run.foldl (create stream) (start raw) calls).invariant Parsed.free
  intro s call s' hs _ hstep
  rw [hstep]
  apply hs.create

/--
All bytes of a delivered message have been dropped exactly if its content is empty and its header
ends in the range of `int`.
-/
theorem accounted_iff (stream : List Byte) (raw : HeadMsg) (calls : List ViewCall)
    : Accounted stream (feed stream raw calls) ↔
      Run (Run.Next (create stream)) (Empties stream) (start raw) calls (feed stream raw calls) := by
  have hstart : Emptied stream (start raw) := by simp [Emptied, start, new_handleState]
  have hinv : ∀ s call s', Parsed stream raw s → Run.Next (create stream) s call s' →
      Parsed stream raw s' := by
    intro s call s' hs hstep
    rw [hstep]
    apply hs.create
  have hiff : ∀ s call s', Parsed stream raw s → Run.Next (create stream) s call s' →
      (Emptied stream s' ↔ Emptied stream s ∧ Empties stream s call) := by
    intro s call s' hs hstep
    rw [hstep]
    apply hs.emptied_iff
  rw [(parsed_feed raw calls).accounted_iff_emptied]
  apply Run.holds_iff Parsed.free hstart hinv hiff (Run.foldl (create stream) (start raw) calls)

-- a header that announces 15 bytes of content and the content
def letters : List Byte :=
  [0xcc, 15, 15, 1, 4, 0, 1, 0, 9, 0, 0, 48, 48, 49, 53] ++ List.replicate 15 97

theorem not_accounted_letters
    : ¬Accounted letters (feed letters ⟨fun _ => 0⟩
        [⟨30, ⟨fun _ => 0, fun _ => 0⟩⟩, ⟨15, ⟨fun _ => 0, fun _ => 0⟩⟩]) := by
  intro haccounted
  rcases haccounted (by decide) with ⟨g, hgarbage, hcount, -⟩
  have hzero : g = 0 := by
    have hmagic : garbage letters = some 0 := by decide
    rw [hmagic] at hgarbage
    cases hgarbage
    rfl
  rw [hzero] at hcount
  revert hcount
  decide

end Feed
end Protocol
end Fish
