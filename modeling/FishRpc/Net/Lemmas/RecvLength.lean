import FishRpc.Net.Lemmas.BufferReceive
import FishRpc.Net.Lemmas.UringEffects

/-!
This module contains the lengths of the receives that the loop submits. A receive of length zero
ends with the result zero, which the loop takes for a disconnect.
-/

namespace Fish

-- a buffer with room for another byte has a window to receive it into
def Buffer.HasRoom (b : Buffer) : Prop :=
  b.disRead.size + 1 < b.size → b.disWrite.size ≠ 0

theorem Buffer.Valid.hasRoom_iff {b : Buffer} (h : b.Valid)
    : b.HasRoom ↔ b.disWrite.size ≠ 0 ∨ b.readIndex = 0 := by
  have hread := h.bounded.disRead_size
  have hwrite := h.disWrite_size
  have hnonneg := h.nonneg
  have hle := h.le
  unfold HasRoom
  omega

namespace Receiving

-- the window is not filled up behind erased bytes, and a full buffer is erased as a whole
def KeepsRoom (s : Receiving) : ReceiveOp → Prop
  | .receive chunk => chunk.length < s.buffer.disWrite.size ∨ s.buffer.readIndex = 0
  | .eraseData len => s.buffer.disWrite.size ≠ 0 ∨ len = 0 ∨ len = s.buffer.disRead.size
  | _ => True

variable {size : Nat} {s s' : Receiving} {op : ReceiveOp}

theorem Inv.receive_hasRoom_iff (h : Inv size s) {chunk : List Byte}
    (hfits : chunk.length ≤ s.buffer.disWrite.size)
    : (s.apply (.receive chunk)).buffer.HasRoom ↔ s.KeepsRoom (.receive chunk) := by
  have hnew := (h.receive hfits).valid
  have hold := h.valid.disWrite_size
  have hwindow := hnew.disWrite_size
  have hwrite : (s.buffer.receive chunk).writeIndex = s.buffer.writeIndex + chunk.length :=
    h.valid.bounded.push_writeIndex (Int.le_of_lt (h.valid.room hfits))
  have hsize : (s.buffer.receive chunk).size = s.buffer.size := rfl
  have hread : (s.buffer.receive chunk).readIndex = s.buffer.readIndex := rfl
  change ((s.buffer.receive chunk).disWrite.size : Int)
      = (s.buffer.receive chunk).size - (s.buffer.receive chunk).writeIndex - 1 at hwindow
  rw [hwrite, hsize] at hwindow
  rw [hnew.hasRoom_iff]
  show (s.buffer.receive chunk).disWrite.size ≠ 0 ∨ (s.buffer.receive chunk).readIndex = 0
    ↔ chunk.length < s.buffer.disWrite.size ∨ s.buffer.readIndex = 0
  rw [hread]
  omega

theorem Inv.eraseData_hasRoom_iff (h : Inv size s) (hroom : s.buffer.HasRoom) {len : Nat}
    (hfits : len ≤ s.buffer.disRead.size)
    : (s.apply (.eraseData len)).buffer.HasRoom ↔ s.KeepsRoom (.eraseData len) := by
  have hlen : len ≤ s.buffer.unread.length := by
    rw [Buffer.length_unread]
    exact hfits
  have hread := h.valid.bounded.disRead_size
  have hnonneg := h.valid.nonneg
  have hle := h.valid.le
  rw [h.valid.hasRoom_iff] at hroom
  rw [(h.eraseData hfits).valid.hasRoom_iff]
  show (s.buffer.eraseData len).disWrite.size ≠ 0 ∨ (s.buffer.eraseData len).readIndex = 0
    ↔ s.buffer.disWrite.size ≠ 0 ∨ len = 0 ∨ len = s.buffer.disRead.size
  rw [Buffer.eraseData_eq h.valid.bounded hlen]
  split
  . have hall : len = s.buffer.disRead.size := by omega
    simp [hall]
  . show s.buffer.disWrite.size ≠ 0 ∨ s.buffer.readIndex + len = 0 ↔ _
    omega

structure Roomy (size : Nat) (s : Receiving) : Prop where
  inv : Inv size s
  room : s.buffer.HasRoom

theorem roomy_new (heap : Int → Byte) (hpos : 0 < size) (hsmall : size < 2 ^ 31)
    : Roomy size (new size heap) where
  inv := inv_new heap hpos hsmall
  room := (inv_new heap hpos hsmall).valid.hasRoom_iff.mpr (Or.inr rfl)

theorem Roomy.hasRoom_iff (h : Roomy size s) (hfits : op.Fits s.buffer)
    : (s.apply op).buffer.HasRoom ↔ s.KeepsRoom op := by
  cases op with
  | disWrite => exact iff_of_true h.room trivial
  | receive chunk => apply h.inv.receive_hasRoom_iff hfits
  | disRead => exact iff_of_true h.room trivial
  | eraseData len => apply h.inv.eraseData_hasRoom_iff h.room hfits
  | clear => exact iff_of_true (h.inv.clear.valid.hasRoom_iff.mpr (Or.inr rfl)) trivial

/--
A receive buffer with room for another byte has a window in all states of exactly the runs that
never fill the buffer behind erased bytes and never erase only a part of a full buffer. The length
of a submitted receive is the size of that window.
-/
theorem hasRoom_iff_keepsRoom (size : Nat) (heap : Int → Byte) (hpos : 1 ≤ size)
    (hsmall : size < 2 ^ 31) (ops : List ReceiveOp) (s : Receiving)
    : (Run Step (fun s op => (s.apply op).buffer.HasRoom) (new size heap) ops s
          ↔
        Run Step KeepsRoom (new size heap) ops s) ∧
      ∀ uring uring' : Uring, uring.beginRecv = .ok uring' →
        ∃ rs, uring'.ring = uring.ring ++ rs ∧
          ∀ r ∈ rs, r.len = (uring.channels r.channel).readBuf.disWrite.size := by
  constructor
  . apply Run.meets_congr (roomy_new heap hpos hsmall)
    . intro s op s' hs hkeeps hstep
      refine ⟨hs.inv.of_step hstep, ?_⟩
      rw [hstep.2]
      exact (hs.hasRoom_iff hstep.1).mpr hkeeps
    . intro s op s' hs hstep
      apply hs.hasRoom_iff hstep.1
  . intro uring uring' h
    rcases Uring.beginRecv_cases h with ⟨rs, _, hrs, huring'⟩
    refine ⟨rs, ?_, fun r hr => (hrs r hr).len⟩
    rw [huring']

def fullRun : List ReceiveOp :=
  [.receive (List.replicate 1023 7), .eraseData 1]

def full : Receiving :=
  ((new 1024 fun _ => 0).apply (.receive (List.replicate 1023 7))).apply (.eraseData 1)

theorem run_full : Run Step Run.Always (new 1024 fun _ => 0) fullRun full :=
  .snoc (.snoc .nil trivial ⟨by decide +kernel, rfl⟩) trivial ⟨by decide +kernel, rfl⟩

theorem not_hasRoom_full
    : ¬∀ size heap ops s,
        1 ≤ size → size < 2 ^ 31 → Run Step Run.Always (new size heap) ops s →
          s.buffer.HasRoom := by
  intro h
  have hroom := h 1024 _ fullRun full (by decide) (by decide) run_full
  exact hroom (by decide +kernel) (by decide +kernel)

theorem hasRoom_iff_keepsRoom_drained
    : let s := ((new 4 fun _ => 0).apply (.receive [1, 2, 3])).apply (.eraseData 3)
      Run Step (fun s op => (s.apply op).buffer.HasRoom) (new 4 fun _ => 0)
        [.receive [1, 2, 3], .eraseData 3] s := by
  intro s
  let s₁ := (new 4 fun _ => 0).apply (.receive [1, 2, 3])
  have hreceive : Step (new 4 fun _ => 0) (.receive [1, 2, 3]) s₁ := ⟨by decide, rfl⟩
  have herase : Step s₁ (.eraseData 3) s := ⟨by decide, rfl⟩
  have hfront : KeepsRoom (new 4 fun _ => 0) (.receive [1, 2, 3]) := Or.inr rfl
  have hall : KeepsRoom s₁ (.eraseData 3) := Or.inr (Or.inr rfl)
  have hkeeps := Run.snoc (.snoc .nil hfront hreceive) hall herase
  apply (hasRoom_iff_keepsRoom 4 _ (by decide) (by decide) _ _).1.mpr hkeeps

end Receiving
end Fish
