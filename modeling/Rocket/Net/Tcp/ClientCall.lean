import Rocket.Net.Tcp.Read
import Rocket.Net.Tcp.TcpClient
import Rocket.Net.Tcp.Write

/-!
# What a client call keeps

Whatever the system does during a call, the call keeps the descriptor of the
connection and its out-buffer: nothing that has been encoded is ever taken out
again. `Keeps` says this of the operations on the connection, and `Returns` of
all six ways out of `sendAndRecvTinyPb`.
-/

namespace Rocket

open Foundation

namespace TcpConnection

/-- What holds of the connection of a client between two operations. -/
structure IsClient (c : TcpConnection) : Prop where
  connectionType_eq : c.connectionType = .byClient
  inBuffer_proper : c.inBuffer.Proper
  inBuffer_lt_int : c.inBuffer.buffer.length < 2 ^ 31
  outBuffer_sound : c.outBuffer.Sound

/-- An operation on the connection of a client keeps its descriptor and its
out-buffer. -/
structure Keeps (c c' : TcpConnection) : Prop where
  isClient : c'.IsClient
  fd_eq : c'.fd = c.fd
  outBuffer_eq : c'.outBuffer = c.outBuffer

variable {c c' c'' : TcpConnection}

theorem IsClient.keeps (hc : c.IsClient) : Keeps c c := ⟨hc, rfl, rfl⟩

theorem Keeps.trans (h : Keeps c c') (h' : Keeps c' c'') : Keeps c c'' :=
  ⟨h'.isClient, h'.fd_eq.trans h.fd_eq, h'.outBuffer_eq.trans h.outBuffer_eq⟩

theorem IsClient.keeps_flags (hc : c.IsClient) (state : TcpState) (stop overTime : Bool) :
    Keeps c { c with state := state, stop := stop, isOverTime := overTime } :=
  ⟨⟨hc.connectionType_eq, hc.inBuffer_proper, hc.inBuffer_lt_int, hc.outBuffer_sound⟩, rfl, rfl⟩

theorem IsClient.keeps_onRead (hc : c.IsClient) {results rest : List (Hooked ReadResult)}
    (h : c.onRead results = some (c', rest)) : Keeps c c' := by
  obtain ⟨inBuffer, overTime, state, stop, rfl, hkeep⟩ := onRead_frame h
  obtain ⟨hproper, hlen⟩ := hkeep hc.inBuffer_proper hc.inBuffer_lt_int
  exact ⟨⟨hc.connectionType_eq, hproper, hlen.trans_lt hc.inBuffer_lt_int, hc.outBuffer_sound⟩,
    rfl, rfl⟩

theorem IsClient.keeps_onWrite (hc : c.IsClient) {results rest : List (Hooked WriteResult)}
    {accepted : Bytes} (h : c.onWrite results = some (c', accepted, rest)) : Keeps c c' := by
  obtain ⟨used, _, rfl, _⟩ := onWrite_spec h
  exact hc.keeps_flags c.state c.stop _

theorem IsClient.keeps_getResPackageData (hc : c.IsClient) {msgId : Bytes} {res : TinyPBProtocol}
    (h : c.getResPackageData msgId = some (res, c')) : Keeps c c' := by
  rcases Option.map_eq_some_iff.1 h with ⟨m, _, heq⟩
  cases heq
  exact ⟨⟨hc.connectionType_eq, hc.inBuffer_proper, hc.inBuffer_lt_int, hc.outBuffer_sound⟩,
    rfl, rfl⟩

section Excute

variable {Method Message : Type} {d : RpcDispatcher Method Message} {fuel : ℕ}

theorem excute_client_eq (htype : c.connectionType = .byClient) :
    c.excute d fuel = (TinyPBCoder.decode fuel [] c.inBuffer).map fun (inBuffer, result) =>
      ({ c with inBuffer := inBuffer, replyMsg := result.foldl insertReply c.replyMsg }, []) := by
  have hclient : ¬ c.connectionType = .byServer := by
    rw [htype]
    decide
  rw [excute, if_neg hclient, Option.map_eq_bind]
  rfl

theorem IsClient.keeps_excute (hc : c.IsClient) {calls : List (Invocation Method Message)}
    (h : c.excute d fuel = some (c', calls)) : Keeps c c' ∧ c'.isOverTime = c.isOverTime := by
  rw [excute_client_eq hc.connectionType_eq] at h
  rcases Option.map_eq_some_iff.1 h with ⟨⟨inBuffer, result⟩, hdecode, heq⟩
  obtain ⟨hproper, hlen⟩ := TinyPBCoder.Proper.of_decode hc.inBuffer_proper hdecode
  cases heq
  exact ⟨⟨⟨hc.connectionType_eq, hproper, hlen.trans_lt hc.inBuffer_lt_int, hc.outBuffer_sound⟩,
    rfl, rfl⟩, rfl⟩

end Excute

end TcpConnection

namespace TcpClient

/-- What holds of a client between two calls. -/
structure Idle (client : TcpClient) : Prop where
  isClient : client.connection.IsClient
  notOverTime : client.connection.isOverTime = false

theorem idle_new (peerAddr : Bytes) (fd : ℤ) : Idle (new peerAddr fd) where
  isClient := ⟨rfl, TcpBuffer.proper_new (by omega), (TcpBuffer.sound_new (by omega)).length_lt_int,
    TcpBuffer.sound_new (by omega)⟩
  notOverTime := rfl

/-- How `sendAndRecvTinyPb` leaves the client that it was called on when the
system opens the socket `socket` for it. -/
structure Returns (client : TcpClient) (socket : ℤ) (r : TcpClient × Received) : Prop where
  keeps : client.connection.Keeps r.1.connection
  notOverTime : r.1.connection.isOverTime = false
  fdEvent_eq : r.1.fdEvent = client.fdEvent
  reopened : r.2.rt ≠ 0 → r.1.fd = socket ∧ r.1.isSocketConnected = false

theorem Returns.head {client client' : TcpClient} {socket : ℤ} {r : TcpClient × Received}
    (h : Returns client' socket r) (hkeeps : client.connection.Keeps client'.connection)
    (hevent : client'.fdEvent = client.fdEvent) : Returns client socket r :=
  ⟨hkeeps.trans h.keeps, h.notOverTime, h.fdEvent_eq.trans hevent, h.reopened⟩

end TcpClient

namespace ClientCall

open TcpClient

variable {call call' : ClientCall}

/-- The connection is a client's, and its flag is set only together with
`is_timeout`. -/
structure Runs (call : ClientCall) : Prop where
  isClient : call.client.connection.IsClient
  flag : call.isTimeout = false → call.client.connection.isOverTime = false

/-- A part of a call keeps the connection, and the descriptor of the event. -/
structure Keeps (call call' : ClientCall) : Prop where
  connection : call.client.connection.Keeps call'.client.connection
  fdEvent_eq : call'.client.fdEvent = call.client.fdEvent

theorem Keeps.trans {call'' : ClientCall} (h : Keeps call call') (h' : Keeps call' call'') :
    Keeps call call'' :=
  ⟨h.connection.trans h'.connection, h'.fdEvent_eq.trans h.fdEvent_eq⟩

theorem Keeps.returns {socket : ℤ} {r : TcpClient × Received} (h : Keeps call call')
    (hr : Returns call'.client socket r) : Returns call.client socket r :=
  hr.head h.connection h.fdEvent_eq

/-- The exits behind `err_deal`. -/
theorem Runs.errDeal (h : call.Runs) (socket : ℤ) :
    Returns call.client socket (call.errDeal socket) := by
  unfold ClientCall.errDeal
  split_ifs with htimeout
  · exact ⟨h.isClient.keeps_flags _ _ false, rfl, rfl, fun _ => ⟨rfl, rfl⟩⟩
  · exact ⟨h.isClient.keeps, h.flag (by simpa using htimeout), rfl, fun _ => ⟨rfl, rfl⟩⟩

theorem Runs.connectRefused (h : call.Runs) (htimeout : call.isTimeout = false)
    (script : Script) : Returns call.client script.socket (call.connectRefused script) :=
  ⟨h.isClient.keeps, h.flag htimeout, rfl, fun _ => ⟨rfl, rfl⟩⟩

/-- How the loop that connects is left. -/
structure Connects (call call' : ClientCall) (exit : ConnectExit) : Prop where
  runs : call'.Runs
  keeps : Keeps call call'
  connected : exit = .connected → call'.client.connection.state = .connected
  refused : exit = .refused → call'.isTimeout = false

theorem Runs.connectLoop (h : call.Runs) {results : List (Hooked ConnectResult)}
    {exit : ConnectExit} (hloop : connectLoop results call = some (call', exit)) :
    Connects call call' exit := by
  induction results generalizing call with
  | nil =>
      rw [ClientCall.connectLoop] at hloop
      split_ifs at hloop with hstate
      cases hloop
      exact ⟨h, ⟨h.isClient.keeps, rfl⟩, fun _ => hstate, by simp⟩
  | cons r results ih =>
      rw [ClientCall.connectLoop] at hloop
      split_ifs at hloop with hstate
      · cases hloop
        exact ⟨h, ⟨h.isClient.keeps, rfl⟩, fun _ => hstate, by simp⟩
      · have hkeeps : Keeps call
            (call.resume (call.client.connection.fire r.overTime) r.overTime) :=
          ⟨h.isClient.keeps_flags _ _ _, rfl⟩
        have hruns : Runs (call.resume (call.client.connection.fire r.overTime) r.overTime) := by
          refine ⟨hkeeps.connection.isClient, fun htimeout => ?_⟩
          obtain ⟨hbefore, hfired⟩ := Bool.or_eq_false_iff.1 htimeout
          exact Bool.or_eq_false_iff.2 ⟨h.flag hbefore, hfired⟩
        cases hr : r.result with
        | success =>
            simp only [hr] at hloop
            cases hloop
            have hstate := hruns.isClient.keeps_flags .connected
              call.client.connection.stop (call.client.connection.isOverTime || r.overTime)
            exact ⟨⟨hstate.isClient, hruns.flag⟩, hkeeps.trans ⟨hstate, rfl⟩, fun _ => rfl, by simp⟩
        | refused =>
            simp only [hr] at hloop
            cases hloop
            refine ⟨hruns, hkeeps, fun hexit => ?_, fun hexit => ?_⟩
            · split_ifs at hexit
            · split_ifs at hexit with htimeout
              simpa using htimeout
        | failed =>
            simp only [hr] at hloop
            split_ifs at hloop with htimeout
            · cases hloop
              exact ⟨hruns, hkeeps, by simp, by simp⟩
            · obtain ⟨hruns', hkeeps', hconnected, hrefused⟩ := ih hruns hloop
              exact ⟨hruns', hkeeps.trans hkeeps', hconnected, hrefused⟩

section Reply

variable {Method Message : Type} {d : RpcDispatcher Method Message} {fuel : ℕ}
  {msgId : Bytes} {socket : ℤ} {s s' : ClientCall × List (Hooked ReadResult)}

theorem replyBody_again (h : Loop.Again (replyBody d fuel msgId socket) s s') :
    ∃ c rest c' calls, s.1.client.connection.getResPackageData msgId = none ∧
      s.1.client.connection.onRead s.2 = some (c, rest) ∧
      c.isOverTime = false ∧ c.state ≠ .closed ∧ c.excute d fuel = some (c', calls) ∧
      s' = ({ s.1.resume c (fired s.2 rest) with client.connection := c' }, rest) := by
  unfold Loop.Again replyBody at h
  split at h
  · cases h
  · next hres =>
      split at h
      · cases h
      · next c rest hread =>
          simp only at h
          split_ifs at h with hover hclosed
          split at h
          · cases h
          · next c' calls hexcute =>
              cases h
              exact ⟨c, rest, c', calls, hres, hread, by simpa using hover, hclosed, hexcute, rfl⟩

theorem keeps_of_again (hs : s.1.client.connection.IsClient)
    (h : Loop.Again (replyBody d fuel msgId socket) s s') :
    Keeps s.1 s'.1 ∧ s'.1.client.connection.isOverTime = false := by
  obtain ⟨c, rest, c', calls, _, hread, hover, _, hexcute, rfl⟩ := replyBody_again h
  have hkeeps := hs.keeps_onRead hread
  obtain ⟨hkeeps', hflag⟩ := hkeeps.isClient.keeps_excute hexcute
  exact ⟨⟨hkeeps.trans hkeeps', rfl⟩, hflag.trans hover⟩

theorem returns_of_leave {r : TcpClient × Received} (hs : s.1.client.connection.IsClient)
    (hflag : s.1.client.connection.isOverTime = false)
    (h : replyBody d fuel msgId socket s = .leave r) : Returns s.1.client socket r := by
  unfold replyBody at h
  split at h
  · next res c hres =>
      cases h
      have hkeeps := hs.keeps_getResPackageData hres
      rcases Option.map_eq_some_iff.1 hres with ⟨_, _, heq⟩
      cases heq
      exact ⟨hkeeps, hflag, rfl, fun hne => absurd rfl hne⟩
  · split at h
    · cases h
    · next c rest hread =>
        have hkeeps := hs.keeps_onRead hread
        simp only at h
        split_ifs at h with hover hclosed
        · cases h
          have hruns : Runs { s.1.resume c (fired s.2 rest) with isTimeout := true } :=
            ⟨hkeeps.isClient, fun hne => by cases hne⟩
          exact (hruns.errDeal socket).head hkeeps rfl
        · cases h
          have hruns : Runs (s.1.resume c (fired s.2 rest)) :=
            ⟨hkeeps.isClient, fun _ => Bool.eq_false_of_not_eq_true hover⟩
          exact (hruns.errDeal socket).head hkeeps rfl
        · split at h <;> cases h

theorem returns_of_run {r : TcpClient × Received} {n : ℕ} (hs : s.1.client.connection.IsClient)
    (hflag : s.1.client.connection.isOverTime = false)
    (h : Loop.run (replyBody d fuel msgId socket) n s = some r) : Returns s.1.client socket r := by
  obtain ⟨t, hreaches, hleave⟩ := Loop.exists_run_eq_some_iff.1 ⟨n, h⟩
  have hinv := hreaches.invariant
    (I := fun t => Keeps s.1 t.1 ∧ t.1.client.connection.isOverTime = false)
    (fun t t' ht hagain => by
      obtain ⟨hkeeps, hflag'⟩ := keeps_of_again ht.1.connection.isClient hagain
      exact ⟨ht.1.trans hkeeps, hflag'⟩)
    ⟨⟨hs.keeps, rfl⟩, hflag⟩
  exact hinv.1.returns (returns_of_leave hinv.1.connection.isClient hinv.2 hleave)

theorem Runs.sendAndRecv {call : ClientCall} (hcall : call.Runs)
    (hstate : call.client.connection.state = .connected) {script : Script}
    {r : TcpClient × Received} (h : call.sendAndRecv d fuel msgId script = some r) :
    Returns call.client script.socket r := by
  rw [ClientCall.sendAndRecv, if_neg (not_not_intro hstate), Option.bind_eq_bind,
    Option.bind_eq_some_iff] at h
  obtain ⟨⟨c, sent, rest⟩, hwrite, h⟩ := h
  rcases Option.map_eq_some_iff.1 h with ⟨⟨client, received⟩, hexit, heq⟩
  cases heq
  have hconnected := hcall.isClient.keeps_flags .connected call.client.connection.stop
    call.client.connection.isOverTime
  have hkeeps := hconnected.trans (hconnected.isClient.keeps_onWrite hwrite)
  have hreturns : Returns call.client script.socket (client, received) := by
    split_ifs at hexit with hover
    · cases hexit
      have hruns : Runs { call.resume c (fired script.writes rest) with isTimeout := true } :=
        ⟨hkeeps.isClient, fun hne => by cases hne⟩
      exact (hruns.errDeal script.socket).head hkeeps rfl
    · have hflag : c.isOverTime = false := by simpa using hover
      exact (returns_of_run hkeeps.isClient hflag hexit).head hkeeps rfl
  exact ⟨hreturns.keeps, hreturns.notOverTime, hreturns.fdEvent_eq, hreturns.reopened⟩

end Reply

end ClientCall

/-- Every way out of `sendAndRecvTinyPb` keeps the connection. -/
theorem TcpClient.Idle.returns {client : TcpClient} (hidle : client.Idle) {Method Message : Type}
    {d : RpcDispatcher Method Message} {fuel : ℕ} {msgId : Bytes} {script : Script}
    {r : TcpClient × Received} (h : client.sendAndRecvTinyPb d fuel msgId script = some r) :
    client.Returns script.socket r := by
  rcases Option.bind_eq_some_iff.1 h with ⟨⟨call, exit⟩, hloop, h⟩
  have hstart : client.startCall.Runs := ⟨hidle.isClient, fun _ => hidle.notOverTime⟩
  obtain ⟨hruns, hkeeps, hconnected, hrefused⟩ := hstart.connectLoop hloop
  suffices hexit : call.client.Returns script.socket r from
    hexit.head hkeeps.connection hkeeps.fdEvent_eq
  cases exit with
  | connected => exact hruns.sendAndRecv (hconnected rfl) h
  | timeout =>
      cases h
      exact hruns.errDeal script.socket
  | refused =>
      cases h
      exact hruns.connectRefused (hrefused rfl) script

end Rocket
