import FishRpc.Lib.Run
import FishRpc.Net.Lemmas.Buffer

/-!
This module contains the runs of a receive buffer and the queue of bytes that it stands for.
-/

namespace Fish

-- `receive` is `disWrite`, a `recv` that places `chunk` at the start of the window, and `already`
inductive ReceiveOp where
  | disWrite
  | receive (chunk : List Byte)
  | disRead
  | eraseData (len : Nat)
  | clear
  deriving DecidableEq

namespace ReceiveOp

-- what the receive path keeps to
def Fits (b : Buffer) : ReceiveOp → Prop
  | .receive chunk => chunk.length ≤ b.disWrite.size
  | .eraseData len => len ≤ b.disRead.size
  | _ => True

instance (b : Buffer) : (op : ReceiveOp) → Decidable (op.Fits b)
  | .receive _ | .eraseData _ => inferInstanceAs (Decidable (_ ≤ _))
  | .disWrite | .disRead | .clear => inferInstanceAs (Decidable True)

-- the assertion in `disWrite` is about an unsigned number and holds of all of them
def Asserts (b : Buffer) : ReceiveOp → Prop
  | .receive chunk => (b.write b.disWrite.offset chunk).AlreadyFits chunk.length
  | .eraseData len => b.EraseFits len
  | _ => True

end ReceiveOp

-- the last fields are history: the bytes received and the bytes erased since the last `clear`
structure Receiving where
  buffer : Buffer
  received : List Byte
  erased : List Byte

namespace Receiving

def new (size : Nat) (heap : Int → Byte) : Receiving where
  buffer := Buffer.new size heap
  received := []
  erased := []

def apply (s : Receiving) : ReceiveOp → Receiving
  | .receive chunk =>
    { s with buffer := s.buffer.receive chunk, received := s.received ++ chunk }
  | .eraseData len =>
    { s with
      buffer := s.buffer.eraseData len
      erased := s.erased ++ (s.buffer.read s.buffer.disRead).take len }
  | .clear => { buffer := s.buffer.clear, received := [], erased := [] }
  | _ => s

def Step (s : Receiving) (op : ReceiveOp) (s' : Receiving) : Prop :=
  op.Fits s.buffer ∧ s' = s.apply op

-- the buffer keeps its capacity, and what was erased and what is unread make up what was received
structure Inv (size : Nat) (s : Receiving) : Prop where
  valid : s.buffer.Valid
  capacity : s.buffer.size = size
  queue : s.erased ++ s.buffer.unread = s.received

theorem inv_new {size : Nat} (heap : Int → Byte) (hpos : 0 < size) (hsmall : size < 2 ^ 31)
    : Inv size (new size heap) where
  valid := Buffer.valid_new heap hpos hsmall
  capacity := rfl
  queue := rfl

variable {size : Nat} {s s' : Receiving} {op : ReceiveOp}

theorem Inv.receive (h : Inv size s) {chunk : List Byte}
    (hfit : chunk.length ≤ s.buffer.disWrite.size) : Inv size (s.apply (.receive chunk)) where
  valid := h.valid.receive hfit
  capacity := h.capacity
  queue := by
    show s.erased ++ (s.buffer.receive chunk).unread = s.received ++ chunk
    rw [Buffer.unread_receive h.valid hfit]
    rw [← List.append_assoc]
    rw [h.queue]

theorem Inv.eraseData (h : Inv size s) {len : Nat} (hfit : len ≤ s.buffer.disRead.size)
    : Inv size (s.apply (.eraseData len)) := by
  have hlen : len ≤ s.buffer.unread.length := by
    rw [Buffer.length_unread]
    exact hfit
  refine ⟨h.valid.eraseData hlen, ?_, ?_⟩
  . show (s.buffer.eraseData len).size = size
    rw [Buffer.eraseData_eq h.valid.bounded hlen]
    split
    . exact h.capacity
    . exact h.capacity
  . show s.erased ++ s.buffer.unread.take len ++ (s.buffer.eraseData len).unread = s.received
    rw [Buffer.unread_eraseData h.valid.bounded hlen]
    rw [List.append_assoc]
    rw [List.take_append_drop]
    exact h.queue

theorem Inv.clear (h : Inv size s) : Inv size (s.apply .clear) where
  valid := by
    have hlt := h.valid.lt
    have hle := h.valid.le
    have hnonneg := h.valid.nonneg
    refine ⟨Int.le_refl 0, Int.le_refl 0, ?_, h.valid.small⟩
    show 0 < (s.buffer.size : Int)
    omega
  capacity := h.capacity
  queue := rfl

theorem Inv.of_step (h : Inv size s) (hstep : Step s op s') : Inv size s' := by
  rcases hstep with ⟨hfits, hs'⟩
  rw [hs']
  cases op with
  | disWrite => exact h
  | receive chunk => apply h.receive hfits
  | disRead => exact h
  | eraseData len => apply h.eraseData hfits
  | clear => apply h.clear

theorem Inv.asserts (h : Inv size s) (hfits : op.Fits s.buffer) : op.Asserts s.buffer := by
  cases op with
  | disWrite => exact trivial
  | receive chunk =>
    have hroom := h.valid.room hfits
    have hle := h.valid.le
    have hnonneg := h.valid.nonneg
    have hsmall := h.valid.small
    show intToSize (sizeToInt (s.buffer.writeIndex + chunk.length)) < s.buffer.size
    rw [Buffer.sizeToInt_eq (by omega) (by omega)]
    have hindex : (intToSize (s.buffer.writeIndex + chunk.length) : Int)
        = s.buffer.writeIndex + chunk.length :=
      Buffer.intToSize_eq (by omega) (by omega)
    omega
  | disRead => exact trivial
  | eraseData len =>
    apply h.valid.bounded.eraseFits
    rw [Buffer.length_unread]
    exact hfits
  | clear => exact trivial

theorem Inv.of_run {heap : Int → Byte} (hpos : 0 < size) (hsmall : size < 2 ^ 31)
    {ops : List ReceiveOp} (h : Run Step Run.Always (new size heap) ops s) : Inv size s := by
  apply h.invariant (inv_new heap hpos hsmall)
  intro s op s' hinv _ hstep
  apply hinv.of_step hstep

/--
A receive buffer is a queue of bytes: the indices stay in order and below the capacity, the window
for the next `recv` lies inside the vector, no assertion fails, and the bytes erased since the last
`clear` followed by the readable ones are the bytes received.
-/
theorem receive_refines_queue (size : Nat) (heap : Int → Byte) (hpos : 1 ≤ size)
    (hsmall : size < 2 ^ 31) (ops : List ReceiveOp) (s : Receiving)
    (h : Run Step Run.Always (new size heap) ops s)
    : (0 ≤ s.buffer.readIndex ∧ s.buffer.readIndex ≤ s.buffer.writeIndex ∧
        s.buffer.writeIndex < size) ∧
      s.buffer.size = size ∧
      (s.buffer.disWrite.size : Int) = size - s.buffer.writeIndex - 1 ∧
      (0 ≤ s.buffer.disWrite.offset ∧
        s.buffer.disWrite.offset + s.buffer.disWrite.size ≤ size) ∧
      (∀ op : ReceiveOp, op.Fits s.buffer → op.Asserts s.buffer) ∧
      s.erased ++ s.buffer.read s.buffer.disRead = s.received := by
  have hinv := Inv.of_run hpos hsmall h
  have hlt := hinv.valid.lt
  have hle := hinv.valid.le
  have hnonneg := hinv.valid.nonneg
  have hwindow := hinv.valid.disWrite_size
  rw [hinv.capacity] at hlt hwindow
  have hoffset : s.buffer.disWrite.offset = s.buffer.writeIndex := rfl
  refine ⟨⟨hnonneg, hle, hlt⟩, hinv.capacity, hwindow, ⟨by omega, by omega⟩, ?_, hinv.queue⟩
  intro op hfits
  apply hinv.asserts hfits

theorem receive_refines_queue_drained
    : let s : Receiving := ((new 4 fun _ => 7).apply (.receive [1, 2])).apply (.eraseData 2)
      Run Step Run.Always (new 4 fun _ => 7) [.receive [1, 2], .eraseData 2] s ∧
        s.erased ++ s.buffer.read s.buffer.disRead = s.received := by
  have hrun : Run Step Run.Always (new 4 fun _ => 7) [.receive [1, 2], .eraseData 2] _ :=
    .snoc (.snoc .nil trivial ⟨by decide, rfl⟩) trivial ⟨by decide, rfl⟩
  exact ⟨hrun, (receive_refines_queue 4 _ (by decide) (by decide) _ _ hrun).2.2.2.2.2⟩

end Receiving
end Fish
