import FishRpc.Registry.Lemmas.RpcRegistry
import FishRpc.Rpc.Lemmas.ServerLoop

/-!
This module contains the refinement of a `Server` by the registry: as long as no receive ends with an
error, the io_uring loop of the registry keeps the table and the receive buffers of a `Server`.
-/

namespace Fish
namespace RpcRegistry

variable {queueSize : Nat} {s s' : RpcRegistry} {e : Event} {es : List Event}

def Clean (s : RpcRegistry) : Event → Prop
  | .complete e _ _ _ => s.uring.Clean e
  | _ => True

theorem loopStep (h : Step s e s') (hclean : s.Clean e)
    : (s'.uring = s.uring ∧ s'.protocols = s.protocols) ∨
        LoopStep s.uring s.protocols s'.uring s'.protocols := by
  cases e with
  | accept fd clientAddr =>
    rcases step_accept h with ⟨_, rfl⟩
    exact Or.inl ⟨rfl, rfl⟩
  | addNewFd heap =>
    rcases step_addNewFd h with ⟨fd, _, uring, _, huring, _, rfl⟩
    exact Or.inr (.addNewFd huring)
  | setAddr =>
    rcases step_setAddr h with ⟨_, _, _, _, _, rfl⟩
    exact Or.inl ⟨rfl, rfl⟩
  | beginRecv =>
    rcases step_beginRecv h with ⟨uring, huring, _, rfl⟩
    exact Or.inr (.beginRecv huring)
  | beginSend =>
    rcases step_beginSend h with ⟨uring, huring, _, rfl⟩
    exact Or.inr (.beginSend huring)
  | complete e raw around now =>
    rcases complete_cases h with ⟨consumed, uring, hindex, hok, hcases⟩
    right
    rcases hcases with ⟨huncalled, rfl⟩ | ⟨c, readBuf, hcalled, herased, ⟨_, rfl⟩ | ⟨_, rfl⟩⟩
    . exact .ended (e := { e with consumed := consumed }) ⟨hindex, hok⟩ hclean huncalled
    . exact .called (e := { e with consumed := consumed }) raw around ⟨hindex, hok⟩ hclean hcalled
        herased
    . exact .called (e := { e with consumed := consumed }) raw around ⟨hindex, hok⟩ hclean hcalled
        herased

theorem looping_of_run (h : Run Step Clean (init queueSize) es s)
    : Looping queueSize s.uring s.protocols := by
  apply h.invariant (Looping.init queueSize)
  intro s e s' hs hclean hstep
  rcases loopStep hstep hclean with ⟨huring, hprotocols⟩ | hloop
  . rw [huring, hprotocols]
    exact hs
  . exact hs.step hloop

/--
Without receive errors the registry has the table and the receive buffers of a `Server` after some
of its runs, and no receive in flight writes outside of the free part of its buffer.
-/
theorem refines_of_run (h : Run Step Clean (init queueSize) es s)
    : (∃ events t, Run Server.Step Run.Always Server.init events t ∧
        t.protocols = s.protocols ∧
        ∀ fd, (t.connections fd).map Connection.readBuf
          = (s.uring.connections fd).map fun c => (s.uring.channels c).readBuf) ∧
      ∀ r ∈ s.uring.ring,
        let readBuf := (s.uring.channels r.channel).readBuf
        r.ptr.storage = readBuf.storage ∧ r.ptr.offset = readBuf.writeIndex ∧ 0 ≤ r.ptr.offset ∧
        r.ptr.offset + r.len < readBuf.size := by
  have hlooping := looping_of_run h
  constructor
  . rcases hlooping.mirror with ⟨events, t, hrun, hmirror⟩
    exact ⟨events, t, hrun, hmirror.protocols, hmirror.readBuf⟩
  . intro r hr
    exact hlooping.window_inside hr

instance (s : RpcRegistry) : ∀ e, Decidable (s.Clean e)
  | .accept _ _ => isTrue trivial
  | .addNewFd _ => isTrue trivial
  | .setAddr => isTrue trivial
  | .beginRecv => isTrue trivial
  | .beginSend => isTrue trivial
  | .complete e _ _ _ => inferInstanceAs (Decidable (s.uring.Clean e))

-- the header has been received and the content has been asked for
theorem refines_of_run_header
    : ∃ s : RpcRegistry, s.uring.ring.map UringRequest.len = [1023] ∧
        (∃ events t, Run Server.Step Run.Always Server.init events t ∧
          t.protocols = s.protocols ∧
          ∀ fd, (t.connections fd).map Connection.readBuf
            = (s.uring.connections fd).map fun c => (s.uring.channels c).readBuf) ∧
        ∀ r ∈ s.uring.ring,
          let readBuf := (s.uring.channels r.channel).readBuf
          r.ptr.storage = readBuf.storage ∧ r.ptr.offset = readBuf.writeIndex ∧ 0 ≤ r.ptr.offset ∧
          r.ptr.offset + r.len < readBuf.size := by
  have hrun : (Run.execute step Clean (init 8)
      (connection ++ [.setAddr, .beginRecv, receives header, .beginRecv])).map
      (fun s => s.uring.ring.map UringRequest.len) = some [1023] := by decide +kernel
  rcases Option.map_eq_some_iff.mp hrun with ⟨s, hs, hlen⟩
  exact ⟨s, hlen, refines_of_run (Run.of_execute (fun _ _ _ hstep => hstep) hs)⟩

end RpcRegistry
end Fish
