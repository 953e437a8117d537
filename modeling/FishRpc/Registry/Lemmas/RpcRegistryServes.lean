import FishRpc.Net.Lemmas.TcpAddrText
import FishRpc.Net.Lemmas.UringAwaited
import FishRpc.Net.Lemmas.UringTask
import FishRpc.Registry.Lemmas.RpcRegistry

/-!
This module contains what the registry does for its connections. It never sends, so each of them is
always awaited by one `READ` and the ring loses no slot. It comes as far as its first completion
without a failing assertion or a throwing constructor, and there it uses a null handle.
-/

namespace Fish
namespace RpcRegistry

open Uring (Sends)

variable {queueSize : Nat} {s s' : RpcRegistry} {e : Event} {es : List Event}

/-! ### The loop -/

theorem uring_step (h : Step s e s')
    : s'.uring = s.uring ∨ ∃ u, ¬Sends u ∧ Uring.Step s.uring u s'.uring := by
  cases e with
  | accept fd clientAddr =>
    rcases step_accept h with ⟨_, rfl⟩
    exact Or.inl rfl
  | addNewFd heap =>
    rcases step_addNewFd h with ⟨fd, _, uring, _, huring, _, rfl⟩
    exact Or.inr ⟨.addNewFd fd heap, id, huring⟩
  | setAddr =>
    rcases step_setAddr h with ⟨_, _, _, _, _, rfl⟩
    exact Or.inl rfl
  | beginRecv =>
    rcases step_beginRecv h with ⟨uring, huring, _, rfl⟩
    exact Or.inr ⟨.beginRecv, id, huring⟩
  | beginSend =>
    rcases step_beginSend h with ⟨uring, huring, _, rfl⟩
    exact Or.inr ⟨.beginSend, id, huring⟩
  | complete e raw around now =>
    rcases complete_cases h with ⟨consumed, uring, hindex, hok, hcases⟩
    have huring : s'.uring = uring := by
      rcases hcases with ⟨_, rfl⟩ | ⟨_, _, _, _, ⟨_, rfl⟩ | ⟨_, rfl⟩⟩
      . rfl
      . rfl
      . rfl
    rw [huring]
    exact Or.inr ⟨.complete { e with consumed := consumed }, id, hindex, hok⟩

structure Serving (queueSize : Nat) (s : RpcRegistry) : Prop where
  inv : Inv s
  uring : Uring.Serving queueSize s.uring

theorem serving_init (queueSize : Nat) : Serving queueSize (init queueSize) :=
  ⟨inv_init queueSize, Uring.serving_init queueSize⟩

theorem Serving.step (h : Serving queueSize s) (hstep : Step s e s') : Serving queueSize s' := by
  refine ⟨h.inv.step hstep, ?_⟩
  rcases uring_step hstep with hsame | ⟨u, hquiet, huring⟩
  . rw [hsame]
    apply h.uring
  . apply h.uring.step hquiet huring

-- what the system gives: `accept` returns the number of no open socket, and a peer has a port
def Accepts (s : RpcRegistry) : Event → Prop
  | .accept fd clientAddr => s.uring.openFds fd = false ∧ clientAddr.sinPort ≠ 0
  | _ => True

-- where the accepting thread is
def Ready (s : RpcRegistry) : Event → Prop
  | .accept fd _ => s.accepting = .idle ∧ 0 < fd
  | .addNewFd _ => ∃ fd clientAddr, s.accepting = .accepted fd clientAddr
  | .setAddr => ∃ channel clientAddr, s.accepting = .added channel clientAddr
  | _ => True

def Event.completes : Event → Bool
  | .complete _ _ _ _ => true
  | _ => false

-- the socket that has been accepted is still new, and its peer has a port
def SoundAccepting (uring : Uring) : Accepting → Prop
  | .idle => True
  | .accepted fd clientAddr => uring.openFds fd = false ∧ clientAddr.sinPort ≠ 0
  | .added _ clientAddr => clientAddr.sinPort ≠ 0

structure Safe (queueSize : Nat) (s : RpcRegistry) : Prop extends Serving queueSize s where
  accepting : SoundAccepting s.uring s.accepting
  tasks : Uring.NullTasks s.uring

theorem SoundAccepting.mono {uring uring' : Uring} {accepting : Accepting}
    (h : SoundAccepting uring accepting)
    (hopen : ∀ fd, uring.openFds fd = false → uring'.openFds fd = false)
    : SoundAccepting uring' accepting := by
  cases accepting with
  | idle => trivial
  | accepted fd clientAddr => exact ⟨hopen fd h.1, h.2⟩
  | added channel clientAddr => exact h

theorem openFds_complete {uring uring' : Uring} {e : Uring.Completion} {fd : Int}
    (h : Uring.Receiving uring) (hinv : Uring.Inv uring) (hindex : e.index < uring.ring.length)
    (hok : uring.complete e = .ok uring') (hclosed : uring.openFds fd = false)
    : uring'.openFds fd = false := by
  have hr : uring.ring[e.index]? = some uring.ring[e.index] := List.getElem?_eq_getElem hindex
  have hmem := List.mem_of_getElem? hr
  have hflag := h.sendFlag hinv (hinv.ring _ hmem).1
  rcases Uring.complete_idle_cases hinv hr (h.ring _ hmem) hflag hok with hdropped | hrenewed
  . rw [hdropped.openFds]
    by_cases heq : fd = uring.ring[e.index].clientSocket
    . rw [heq]
      apply Function.update_self
    . rw [Function.update_of_ne heq]
      exact hclosed
  . rw [hrenewed.openFds]
    exact hclosed

theorem Safe.nullTasks (h : Safe queueSize s) (hstep : Step s e s')
    : Uring.NullTasks s'.uring := by
  rcases uring_step hstep with hsame | ⟨u, _, huring⟩
  . rw [hsame]
    exact h.tasks
  . exact (h.tasks.step h.inv.uring huring).1

theorem Safe.step (h : Safe queueSize s) (haccepts : s.Accepts e) (hstep : Step s e s')
    : Safe queueSize s' := by
  refine ⟨h.toServing.step hstep, ?_, h.nullTasks hstep⟩
  have hsound := h.accepting
  cases e with
  | accept fd clientAddr =>
    rcases step_accept hstep with ⟨_, rfl⟩
    exact haccepts
  | addNewFd heap =>
    rcases step_addNewFd hstep with ⟨fd, clientAddr, uring, haccepting, _, _, rfl⟩
    rw [haccepting] at hsound
    exact hsound.2
  | setAddr =>
    rcases step_setAddr hstep with ⟨_, _, _, _, _, rfl⟩
    trivial
  | beginRecv =>
    rcases step_beginRecv hstep with ⟨uring, huring, _, rfl⟩
    rcases Uring.beginRecv_cases huring.2 with ⟨_, _, _, rfl⟩
    exact hsound.mono fun _ => id
  | beginSend =>
    rcases step_beginSend hstep with ⟨uring, huring, _, rfl⟩
    rcases Uring.beginSend_cases huring.2 with ⟨_, _, _, rfl⟩
    exact hsound.mono fun _ => id
  | complete e raw around now =>
    rcases complete_cases hstep with ⟨consumed, uring, hindex, hok, hcases⟩
    have hmono : SoundAccepting uring s.accepting := by
      apply hsound.mono
      intro fd hclosed
      exact openFds_complete (e := { e with consumed := consumed }) h.uring.receiving h.inv.uring
        hindex hok hclosed
    rcases hcases with ⟨_, rfl⟩ | ⟨_, _, _, _, ⟨_, rfl⟩ | ⟨_, rfl⟩⟩
    . exact hmono
    . exact hmono
    . exact hmono

instance (s : RpcRegistry) : ∀ e, Decidable (s.Accepts e)
  | .accept _ _ => inferInstanceAs (Decidable (_ ∧ _))
  | .addNewFd _ => isTrue trivial
  | .setAddr => isTrue trivial
  | .beginRecv => isTrue trivial
  | .beginSend => isTrue trivial
  | .complete _ _ _ _ => isTrue trivial

-- a connection that is closed by its peer without a message
def closing : Event :=
  .complete ⟨0, 0, 0, fun _ => 0, 0⟩ ⟨fun _ => 0⟩ (fun _ => 0) 0

end RpcRegistry
end Fish
