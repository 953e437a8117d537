import FishRpc.Lib.Run
import FishRpc.Net.Lemmas.Buffer

/-!
This module contains the runs of a send buffer. It stays a queue of bytes until it has to grow.
-/

namespace Fish

-- `heap` is the memory around the vector that `input` may allocate
inductive SendOp where
  | input (view : List Byte) (heap : Int → Byte)
  | eraseData (len : Nat)
  | clear
  | disRead

namespace SendOp

def apply (b : Buffer) : SendOp → Buffer
  | .input view heap => b.input view heap
  | .eraseData len => b.eraseData len
  | .clear => b.clear
  | .disRead => b

-- what the send path keeps to
def Fits (b : Buffer) : SendOp → Prop
  | .eraseData len => len ≤ b.disRead.size
  | _ => True

def Step (b : Buffer) (op : SendOp) (b' : Buffer) : Prop :=
  op.Fits b ∧ b' = op.apply b

end SendOp

namespace Buffer

-- the buffer that `input` copies the view into
def grown (b : Buffer) (view : List Byte) (heap : Int → Byte) : Buffer :=
  if view.length > intToSize (b.size - b.writeIndex) then b.grow view.length heap else b

theorem input_grown (b : Buffer) (view : List Byte) (heap : Int → Byte)
    : b.input view heap = (b.grown view heap).push view :=
  rfl

-- the bytes that are readable after an operation on a queue
def dequeued (b : Buffer) : SendOp → List Byte
  | .input view _ => b.read b.disRead ++ view
  | .eraseData len => (b.read b.disRead).drop len
  | .clear => []
  | .disRead => b.read b.disRead

-- the memory that the operation writes to lies inside the vector
def WritesInside (b : Buffer) : SendOp → Prop
  | .input view heap =>
    let b := b.grown view heap
    0 ≤ b.writeIndex ∧ b.writeIndex + view.length ≤ b.size
  | _ => True

structure IsQueue (b : Buffer) (op : SendOp) : Prop where
  nonneg : 0 ≤ (op.apply b).readIndex
  le : (op.apply b).readIndex ≤ (op.apply b).writeIndex
  fits : (op.apply b).writeIndex ≤ (op.apply b).size
  inside : b.WritesInside op
  queue : (op.apply b).read (op.apply b).disRead = b.dequeued op

def InputFits (b : Buffer) : SendOp → Prop
  | .input view _ => b.writeIndex + view.length ≤ b.size
  | _ => True

variable {b : Buffer}

theorem Bounded.clear (h : Bounded b) : Bounded b.clear :=
  ⟨Int.le_refl 0, Int.le_refl 0, Int.natCast_nonneg b.size, h.small⟩

theorem Bounded.grown_eq (h : Bounded b) {view : List Byte} (heap : Int → Byte)
    (hfit : b.writeIndex + view.length ≤ b.size) : b.grown view heap = b := by
  have hfree := h.free
  unfold grown
  rw [if_neg (by omega)]

theorem grow_size (b : Buffer) (len : Nat) (heap : Int → Byte)
    : (b.grow len heap).size = intToSize (b.writeIndex - b.readIndex + len) :=
  rfl

theorem grow_writeIndex (b : Buffer) (len : Nat) (heap : Int → Byte)
    : (b.grow len heap).writeIndex = sizeToInt (b.grow len heap).size := by
  unfold grow
  simp only

theorem writeIndex_push (b : Buffer) (bytes : List Byte)
    : (b.push bytes).writeIndex = sizeToInt (b.writeIndex + bytes.length) :=
  rfl

theorem readIndex_grow_push (b : Buffer) (view : List Byte) (heap : Int → Byte)
    : ((b.grow view.length heap).push view).readIndex = 0 :=
  rfl

/--
A view that does not fit behind the write index is copied behind the end of the new vector.
-/
theorem Bounded.not_isQueue_grow (h : Bounded b) {view : List Byte} (heap : Int → Byte)
    (hfit : b.size < b.writeIndex + view.length) : ¬b.IsQueue (.input view heap) := by
  intro hqueue
  have hfree := h.free
  have hunread := h.disRead_size
  have hbound := h.fits
  have hgrown : b.grown view heap = b.grow view.length heap := by
    unfold grown
    rw [if_pos (by omega)]
  have hinput : (SendOp.input view heap).apply b = (b.grow view.length heap).push view := by
    show b.input view heap = _
    rw [input_grown]
    rw [hgrown]
  -- the write index is an `int`, so there are few enough readable bytes for nothing to wrap
  have hle : 0 ≤ ((b.grow view.length heap).push view).writeIndex := by
    rw [← hinput]
    apply Int.le_trans hqueue.nonneg hqueue.le
  have hlt : ((b.grow view.length heap).push view).writeIndex < 2 ^ 31 := by
    rw [writeIndex_push]
    have hint := sizeToInt_lt ((b.grow view.length heap).writeIndex + view.length)
    omega
  have hindex := intToSize_eq hle hlt
  have hlength : intToSize ((b.grow view.length heap).push view).writeIndex
      = b.disRead.size + view.length := by
    have hread := congrArg List.length hqueue.queue
    rw [hinput] at hread
    change (Buffer.unread _).length = (b.unread ++ view).length at hread
    rw [List.length_append, length_unread, length_unread] at hread
    rw [← hread]
    unfold disRead
    rw [readIndex_grow_push]
    rw [Int.sub_zero]
  have hsize : (b.grow view.length heap).size = b.disRead.size + view.length := by
    rw [grow_size]
    rw [← hunread]
    apply intToSize_of_lt (by omega)
  have hwrite : (b.grow view.length heap).writeIndex = b.disRead.size + view.length := by
    rw [grow_writeIndex]
    rw [hsize]
    apply sizeToInt_of_lt (by omega)
  have hinside := hqueue.inside.2
  rw [hgrown, hwrite, hsize] at hinside
  omega

theorem Bounded.isQueue_of_bounded {op : SendOp} (hnew : Bounded (op.apply b))
    (hinside : b.WritesInside op) (hqueue : (op.apply b).unread = b.dequeued op) : b.IsQueue op :=
  ⟨hnew.nonneg, hnew.le, hnew.fits, hinside, hqueue⟩

theorem Bounded.step (h : Bounded b) {op : SendOp} (hfits : op.Fits b) (hinput : b.InputFits op)
    : Bounded (op.apply b) ∧ b.IsQueue op := by
  cases op with
  | input view heap =>
    have happly : (SendOp.input view heap).apply b = b.push view := by
      show b.input view heap = _
      rw [input_grown]
      rw [h.grown_eq heap hinput]
    have hnew : Bounded ((SendOp.input view heap).apply b) := by
      rw [happly]
      apply h.push hinput
    refine ⟨hnew, isQueue_of_bounded hnew ?_ ?_⟩
    . have hle := h.le
      have hnonneg := h.nonneg
      show 0 ≤ (b.grown view heap).writeIndex ∧ _ ≤ ((b.grown view heap).size : Int)
      rw [h.grown_eq heap hinput]
      exact ⟨by omega, hinput⟩
    . rw [happly]
      apply unread_push h hinput
  | eraseData len =>
    have hlen : len ≤ b.unread.length := by
      rw [length_unread]
      exact hfits
    have hnew := h.eraseData hlen
    exact ⟨hnew, isQueue_of_bounded hnew trivial (unread_eraseData h hlen)⟩
  | clear => exact ⟨h.clear, isQueue_of_bounded h.clear trivial rfl⟩
  | disRead => exact ⟨h, isQueue_of_bounded h trivial rfl⟩

theorem Bounded.isQueue_iff (h : Bounded b) {op : SendOp} (hfits : op.Fits b)
    : b.IsQueue op ↔ b.InputFits op := by
  constructor
  . intro hqueue
    cases op with
    | input view heap =>
      apply Int.not_lt.mp
      intro hfit
      apply h.not_isQueue_grow heap hfit hqueue
    | eraseData len => exact trivial
    | clear => exact trivial
    | disRead => exact trivial
  . intro hinput
    apply (h.step hfits hinput).2

/--
Every operation of a run leaves a queue of the expected bytes and writes inside the vector, exactly
if each input fits behind the write index, so that the buffer does not grow.
-/
theorem isQueue_iff_inputFits (size : Nat) (heap : Int → Byte) (hsmall : size < 2 ^ 31)
    (ops : List SendOp) (b : Buffer)
    : Run SendOp.Step IsQueue (new size heap) ops b
        ↔
      Run SendOp.Step InputFits (new size heap) ops b := by
  apply Run.meets_congr (bounded_new heap hsmall)
  . intro b op b' h hinput hstep
    rw [hstep.2]
    exact (h.step hstep.1 hinput).1
  . intro b op b' h hstep
    apply h.isQueue_iff hstep.1

theorem isQueue_iff_inputFits_filled
    : let ops : List SendOp := [.input [1, 2] fun _ => 0, .eraseData 1, .input [3] fun _ => 0]
      Run SendOp.Step IsQueue (new 3 fun _ => 0) ops (ops.foldl (fun b op => op.apply b)
        (new 3 fun _ => 0)) := by
  intro ops
  let b₁ := Buffer.push (new 3 fun _ => 0) [1, 2]
  have hfirst : SendOp.Step (new 3 fun _ => 0) (.input [1, 2] fun _ => 0) b₁ := ⟨trivial, rfl⟩
  have herase : SendOp.Step b₁ (.eraseData 1) (b₁.eraseData 1) := ⟨by show 1 ≤ _; decide, rfl⟩
  have hlast : SendOp.Step (b₁.eraseData 1) (.input [3] fun _ => 0) _ := ⟨trivial, rfl⟩
  have hfits : InputFits (new 3 fun _ => 0) (.input [1, 2] fun _ => 0) := by
    show (0 : Int) + 2 ≤ 3
    decide
  have hfits' : InputFits (b₁.eraseData 1) (.input [3] fun _ => 0) := by
    show (2 : Int) + 1 ≤ 3
    decide
  have herased : InputFits b₁ (.eraseData 1) := trivial
  have hrun := Run.snoc (.snoc (.snoc .nil hfits hfirst) herased herase) hfits' hlast
  apply (isQueue_iff_inputFits 3 _ (by decide) _ _).mpr hrun

theorem not_isQueue_new
    : ¬∀ size heap ops b op,
        size < 2 ^ 31 → Run SendOp.Step Run.Always (new size heap) ops b → op.Fits b →
          b.IsQueue op := by
  intro h
  have hqueue := h 1024 (fun _ => 0) [] _ (.input (List.replicate 1025 7) fun _ => 0) (by decide)
    .nil trivial
  exact absurd hqueue.inside.2 (by decide +kernel)

end Buffer
end Fish
