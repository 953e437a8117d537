import FishRpc.Net.Lemmas.UringWindow
import FishRpc.Rpc.Lemmas.ServerErase

/-!
This module connects the two levels that a server is modelled on. An io_uring loop whose callback is
`readMes` does the steps of a `Server`: a completion is a read or the close of one connection, and a
submission is nothing.
-/

namespace Fish

-- the same table, and a connection for each channel with the same receive buffer
structure Mirrors (uring : Uring) (protocols : ProtocolManager) (t : Server) : Prop where
  protocols : t.protocols = protocols
  readBuf : ∀ fd, (t.connections fd).map Connection.readBuf =
    (uring.connections fd).map fun c => (uring.channels c).readBuf

-- one step of a loop with the callback `readMes`, whatever is done with the messages it returns
inductive LoopStep (uring : Uring) (protocols : ProtocolManager) : Uring → ProtocolManager → Prop where
  | addNewFd {uring' : Uring} {fd : Int} {heap : Int → Byte}
    (h : Uring.Step uring (.addNewFd fd heap) uring') : LoopStep uring protocols uring' protocols
  | beginRecv {uring' : Uring} (h : Uring.Step uring .beginRecv uring')
    : LoopStep uring protocols uring' protocols
  | beginSend {uring' : Uring} (h : Uring.Step uring .beginSend uring')
    : LoopStep uring protocols uring' protocols
  | ended {uring' : Uring} {e : Uring.Completion} (h : Uring.Step uring (.complete e) uring')
    (clean : uring.Clean e) (uncalled : uring.called e = none)
    : LoopStep uring protocols uring' protocols
  | called {uring' : Uring} {e : Uring.Completion} {c : ChannelId} {readBuf : Buffer}
    (raw : HeadMsg) (around : Int → Byte) (h : Uring.Step uring (.complete e) uring')
    (clean : uring.Clean e) (called : uring.called e = some (c, readBuf))
    (erased : (uring'.channels c).readBuf
      = (protocols.readMes (uring.channels c).fd readBuf raw around).2.2)
    : LoopStep uring protocols uring'
        (protocols.readMes (uring.channels c).fd readBuf raw around).2.1

structure Looping (queueSize : Nat) (uring : Uring) (protocols : ProtocolManager) : Prop where
  serving : uring.Serving queueSize
  windows : uring.Windows
  mirror : ∃ es t, Run Server.Step Run.Always Server.init es t ∧ Mirrors uring protocols t

namespace Looping

variable {queueSize : Nat} {uring uring' : Uring} {protocols protocols' : ProtocolManager}

theorem init (queueSize : Nat) : Looping queueSize (Uring.init queueSize) ProtocolManager.new where
  serving := Uring.serving_init queueSize
  windows r hr := by cases hr
  mirror := ⟨[], Server.init, .nil, rfl, fun fd => rfl⟩

theorem connection_of_some {t : Server} (h : Mirrors uring protocols t) {fd : Int} {c : ChannelId}
    (hfd : uring.connections fd = some c)
    : ∃ conn, t.connections fd = some conn ∧ conn.readBuf = (uring.channels c).readBuf := by
  have hbuf := h.readBuf fd
  rw [hfd, Option.map_some] at hbuf
  rcases Option.map_eq_some_iff.mp hbuf with ⟨conn, hconn, heq⟩
  exact ⟨conn, hconn, heq⟩

-- the receive buffers are those of a server
theorem valid (h : Looping queueSize uring protocols) {fd : Int} {c : ChannelId}
    (hfd : uring.connections fd = some c) : (uring.channels c).readBuf.Valid := by
  rcases h.mirror with ⟨es, t, hrun, hmirror⟩
  rcases connection_of_some hmirror hfd with ⟨conn, hconn, heq⟩
  rw [← heq]
  exact (Server.sound_of_run hrun).valid fd conn hconn

-- one event of the server for one step of the loop
theorem snoc (h : Looping queueSize uring protocols) (raw : HeadMsg) (e : Server.Event)
    (hserving : uring'.Serving queueSize) (hwindows : uring'.Windows)
    (hstep : ∀ t, Mirrors uring protocols t →
      ∃ t', Server.step raw t e = some t' ∧ Mirrors uring' protocols' t')
    : Looping queueSize uring' protocols' := by
  refine ⟨hserving, hwindows, ?_⟩
  rcases h.mirror with ⟨es, t, hrun, hmirror⟩
  rcases hstep t hmirror with ⟨t', hnext, hmirror'⟩
  exact ⟨es ++ [(raw, e)], t', hrun.snoc trivial hnext, hmirror'⟩

-- everything but one connection stays as it is
theorem mirrors_update {t : Server} (h : Mirrors uring protocols t) {fd : Int}
    {new : Option Connection}
    (hself : new.map Connection.readBuf
      = (uring'.connections fd).map fun c => (uring'.channels c).readBuf)
    (hother : ∀ fd', fd' ≠ fd → uring'.connections fd' = uring.connections fd' ∧
      ∀ c, uring.connections fd' = some c → uring'.channels c = uring.channels c)
    : Mirrors uring' protocols' ⟨Function.update t.connections fd new, protocols'⟩ where
  protocols := rfl
  readBuf fd' := by
    show (Function.update t.connections fd new fd').map Connection.readBuf = _
    by_cases heq : fd' = fd
    . subst heq
      rw [Function.update_self]
      exact hself
    . rcases hother fd' heq with ⟨hconnection, hchannel⟩
      rw [Function.update_of_ne heq, h.readBuf fd', hconnection]
      cases hfd : uring.connections fd' with
      | none => rfl
      | some c =>
        rw [Option.map_some, Option.map_some, hchannel c hfd]

theorem addNewFd (h : Looping queueSize uring protocols) {fd : Int} {heap : Int → Byte}
    (hstep : Uring.Step uring (.addNewFd fd heap) uring') : Looping queueSize uring' protocols := by
  have hinv := h.serving.inv
  have hopen : uring.connections fd = none := by
    cases hfd : uring.connections fd with
    | none => rfl
    | some c =>
      have hopen := hinv.isOpen fd c hfd
      rw [hstep.1] at hopen
      cases hopen
  apply h.snoc ⟨fun _ => 0⟩ (.new fd heap)
    (h.serving.step (e := .addNewFd fd heap) id hstep) (h.windows.addNewFd hinv hopen hstep.2)
  intro t hmirror
  have hnone : t.connections fd = none := by
    have hbuf := hmirror.readBuf fd
    rw [hopen] at hbuf
    exact Option.map_eq_none_iff.mp hbuf
  refine ⟨⟨Function.update t.connections fd (some (Connection.new heap)), t.protocols⟩, ?_, ?_⟩
  . simp only [Server.step, hnone]
  . rw [hmirror.protocols]
    apply mirrors_update hmirror
    . rw [Uring.addNewFd_cases hstep.2]
      simp [Uring.opened, Uring.addReadRequest, Connection.new, Channel.new]
    . rw [Uring.addNewFd_cases hstep.2]
      intro fd' hne
      refine ⟨Function.update_of_ne hne _ _, ?_⟩
      intro c hc
      exact Function.update_of_ne (Nat.ne_of_lt (hinv.fresh fd' c hc)) _ _

-- what a completion does to the loop and what the connections are that it leaves alone
theorem completed (h : Looping queueSize uring protocols) {e : Uring.Completion}
    (hstep : Uring.Step uring (.complete e) uring') (hclean : uring.Clean e)
    : ∃ r, uring.ring[e.index]? = some r ∧ uring.connections r.clientSocket = some r.channel ∧
        uring'.Windows ∧
        ((uring.called e = none ∧ Uring.Dropped uring e.index r.clientSocket uring') ∨
          (Uring.Received uring r e ∧ Uring.Renewed uring e.index r.clientSocket uring')) ∧
        ∀ fd', fd' ≠ r.clientSocket → uring'.connections fd' = uring.connections fd' ∧
          ∀ c, uring.connections fd' = some c → uring'.channels c = uring.channels c := by
  have hinv := h.serving.inv
  have hindex : e.index < uring.ring.length := hstep.1
  have hr : uring.ring[e.index]? = some uring.ring[e.index] := List.getElem?_eq_getElem hindex
  generalize uring.ring[e.index] = r at hr
  have hwindow := h.windows r (List.mem_of_getElem? hr)
  have hflag := h.serving.receiving.sendFlag hinv hwindow.channel
  rcases Uring.complete_clean_cases hinv hr hwindow (h.valid hwindow.channel) hflag hclean hstep.2
    with ⟨hcases, hframe⟩
  have hconnections : ∀ fd', fd' ≠ r.clientSocket →
      uring'.connections fd' = uring.connections fd' := by
    intro fd' hne
    rcases hcases with ⟨_, hdropped⟩ | ⟨_, hrenewed⟩
    . rw [hdropped.connections, Function.update_of_ne hne]
    . rw [hrenewed.connections]
  have hring : uring'.ring = uring.ring.eraseIdx e.index := by
    rcases hcases with ⟨_, hdropped⟩ | ⟨_, hrenewed⟩
    . exact hdropped.ring
    . exact hrenewed.ring
  refine ⟨r, hr, hwindow.channel, ?_, hcases, ?_⟩
  . exact h.windows.complete h.serving.receiving hinv hr hring hconnections hframe
  . intro fd' hne
    refine ⟨hconnections fd' hne, ?_⟩
    intro c hc
    apply hframe
    rintro rfl
    exact hne (hinv.inj hc hwindow.channel)

theorem ended (h : Looping queueSize uring protocols) {e : Uring.Completion}
    (hstep : Uring.Step uring (.complete e) uring') (hclean : uring.Clean e)
    (huncalled : uring.called e = none) : Looping queueSize uring' protocols := by
  rcases h.completed hstep hclean with ⟨r, hr, hconnected, hwindows, hcases, hother⟩
  have hdropped : Uring.Dropped uring e.index r.clientSocket uring' := by
    rcases hcases with ⟨_, hdropped⟩ | ⟨hreceived, _⟩
    . exact hdropped
    . rw [hreceived.called] at huncalled
      cases huncalled
  apply h.snoc ⟨fun _ => 0⟩ (.close r.clientSocket)
    (h.serving.step (e := .complete e) id hstep) hwindows
  intro t hmirror
  rcases connection_of_some hmirror hconnected with ⟨conn, hconn, _⟩
  refine ⟨⟨Function.update t.connections r.clientSocket none, t.protocols⟩, ?_, ?_⟩
  . simp only [Server.step, hconn]
  . rw [hmirror.protocols]
    apply mirrors_update hmirror ?_ hother
    rw [hdropped.connections, Function.update_self]
    rfl

theorem received (h : Looping queueSize uring protocols) {e : Uring.Completion} {c : ChannelId}
    {readBuf : Buffer} (raw : HeadMsg) (around : Int → Byte)
    (hstep : Uring.Step uring (.complete e) uring') (hclean : uring.Clean e)
    (hcalled : uring.called e = some (c, readBuf))
    (herased : (uring'.channels c).readBuf
      = (protocols.readMes (uring.channels c).fd readBuf raw around).2.2)
    : Looping queueSize uring'
        (protocols.readMes (uring.channels c).fd readBuf raw around).2.1 := by
  rcases h.completed hstep hclean with ⟨r, hr, hconnected, hwindows, hcases, hother⟩
  rcases hcases with ⟨huncalled, _⟩ | ⟨hreceived, hrenewed⟩
  . rw [hcalled] at huncalled
    cases huncalled
  rw [hreceived.called] at hcalled
  cases hcalled
  have hfd := h.serving.inv.fd _ _ hconnected
  rw [hfd] at herased ⊢
  apply h.snoc raw (.read r.clientSocket ⟨Uring.chunk e, around⟩)
    (h.serving.step (e := .complete e) id hstep) hwindows
  intro t hmirror
  rcases connection_of_some hmirror hconnected with ⟨conn, hconn, hbuf⟩
  have hread : Server.step raw t (.read r.clientSocket ⟨Uring.chunk e, around⟩)
      = some ⟨Function.update t.connections r.clientSocket
          (some (conn.receive t.protocols r.clientSocket raw ⟨Uring.chunk e, around⟩).1),
        (conn.receive t.protocols r.clientSocket raw ⟨Uring.chunk e, around⟩).2⟩ := by
    simp only [Server.step, hconn, hbuf, hreceived.nonempty, hreceived.fits, ne_eq, not_false_eq_true,
      and_self, if_true]
  refine ⟨_, hread, ?_⟩
  have hprotocols : (conn.receive t.protocols r.clientSocket raw ⟨Uring.chunk e, around⟩).2
      = (protocols.readMes r.clientSocket
          ((uring.channels r.channel).readBuf.receive (Uring.chunk e)) raw around).2.1 := by
    rw [← hmirror.protocols, ← hbuf]
    rfl
  rw [hprotocols]
  apply mirrors_update hmirror ?_ hother
  rw [hrenewed.connections, hconnected, Option.map_some, Option.map_some, herased]
  rw [← hmirror.protocols, ← hbuf]
  rfl

theorem step (h : Looping queueSize uring protocols)
    (hstep : LoopStep uring protocols uring' protocols') : Looping queueSize uring' protocols' := by
  cases hstep with
  | addNewFd hstep => exact h.addNewFd hstep
  | beginRecv hstep =>
    refine ⟨h.serving.step (e := .beginRecv) id hstep, h.windows.beginRecv hstep.2, ?_⟩
    rcases h.mirror with ⟨es, t, hrun, hmirror⟩
    rcases Uring.beginRecv_cases hstep.2 with ⟨_, _, _, rfl⟩
    exact ⟨es, t, hrun, hmirror.protocols, hmirror.readBuf⟩
  | beginSend hstep =>
    refine ⟨h.serving.step (e := .beginSend) id hstep,
      h.windows.beginSend h.serving.receiving.sendQue hstep.2, ?_⟩
    rcases h.mirror with ⟨es, t, hrun, hmirror⟩
    rcases Uring.beginSend_cases hstep.2 with ⟨_, _, _, rfl⟩
    exact ⟨es, t, hrun, hmirror.protocols, hmirror.readBuf⟩
  | ended hstep hclean huncalled => exact h.ended hstep hclean huncalled
  | called raw around hstep hclean hcalled herased =>
    exact h.received raw around hstep hclean hcalled herased

-- the window of each `READ` in flight is behind the unread bytes and inside the vector
theorem window_inside (h : Looping queueSize uring protocols) {r : UringRequest}
    (hr : r ∈ uring.ring)
    : r.ptr.storage = (uring.channels r.channel).readBuf.storage ∧
      r.ptr.offset = (uring.channels r.channel).readBuf.writeIndex ∧
      0 ≤ r.ptr.offset ∧ r.ptr.offset + r.len < (uring.channels r.channel).readBuf.size := by
  have hwindow := h.windows r hr
  have hvalid := h.valid hwindow.channel
  have hsize := hvalid.disWrite_size
  have hread := hvalid.nonneg
  have hwrite := hvalid.le
  have hoffset : r.ptr.offset = (uring.channels r.channel).readBuf.writeIndex := by
    rw [hwindow.ptr]
    rfl
  refine ⟨?_, hoffset, ?_, ?_⟩
  . rw [hwindow.ptr]
  . omega
  . have hlen := hwindow.len
    omega

end Looping
end Fish
