import Rocket.Net.Tcp.ClientCall

/-!
# When the reply arrives

A call that connects and sends its request before the timeout reads until the
packet of the reply is in the in-buffer. `Arrives` describes the rounds of
reading, and `sendAndRecvTinyPb_reply` says that the call then returns the reply.
-/

namespace Rocket

open Foundation TinyPBProtocol TinyPBCoder

/-- The connection is connected already, or `connect` succeeds before the
timeout. -/
def ConnectsInTime (c : TcpConnection) (results : List (Hooked ConnectResult)) : Prop :=
  c.state = .connected ∨
    ∃ n rest, results = List.replicate n ⟨.failed, false⟩ ++ ⟨.success, false⟩ :: rest

/-- The rounds of reading until the bytes `bytes` are what the in-buffer holds:
before the last one `decode` finds nothing in it, as when it is empty. No round
meets the timeout or the end of the stream. -/
inductive Arrives (bytes : Bytes) : TcpConnection → List (Hooked ReadResult) → Prop
  | now {c c' : TcpConnection} {results rest : List (Hooked ReadResult)}
      (hread : c.onRead results = some (c', rest)) (htime : c'.isOverTime = false)
      (hopen : c'.state ≠ .closed) (hbytes : c'.inBuffer.readable = bytes) :
      Arrives bytes c results
  | later {c c' : TcpConnection} {results rest : List (Hooked ReadResult)}
      (hread : c.onRead results = some (c', rest)) (htime : c'.isOverTime = false)
      (hopen : c'.state ≠ .closed) (hnone : FindsNone c'.inBuffer)
      (hrest : Arrives bytes c' rest) : Arrives bytes c results

/-- The call connects, its request is sent from the out-buffer of `c`, and `bytes`
arrive, all before the timeout. -/
def AnsweredInTime (c : TcpConnection) (script : Script) (bytes : Bytes) : Prop :=
  ConnectsInTime c script.connects ∧
    ∃ c' sent rest, (c.setState .connected).onWrite script.writes = some (c', sent, rest) ∧
      c'.isOverTime = false ∧ Arrives bytes c' script.reads

namespace TcpConnection

theorem insertReply_self {replyMsg : Bytes → Option TinyPBProtocol} {m : TinyPBProtocol}
    (hnone : replyMsg m.msgId = none) : insertReply replyMsg m m.msgId = some m := by
  rw [insertReply, hnone]
  exact Function.update_self ..

section Excute

variable {Method Message : Type} {d : RpcDispatcher Method Message} {c : TcpConnection}

theorem IsClient.excute_of_findsNone (hc : c.IsClient) (hnone : FindsNone c.inBuffer) {fuel : ℕ}
    (hfuel : fuel ≥ 1) : c.excute d fuel = some (c, []) := by
  have hrun : decode fuel [] c.inBuffer = some (c.inBuffer, []) :=
    Loop.run_mono hfuel (decode_of_findsNone hc.inBuffer_proper hnone [] 0)
  rw [excute_client_eq hc.connectionType_eq, hrun]
  rfl

/-- A client whose in-buffer holds the packet of `m` stores `m`. -/
theorem IsClient.excute_of_packet (hc : c.IsClient) {m : TinyPBProtocol} (hm : m.Encodable)
    (hread : c.inBuffer.readable = stream [m]) :
    ∃ inBuffer, ∀ fuel ≥ 2, c.excute d fuel = some
      ({ c with inBuffer := inBuffer, replyMsg := insertReply c.replyMsg m.delivered }, []) := by
  obtain ⟨stale, spare, hlay⟩ := hc.inBuffer_proper.exists_layout
  rw [hread] at hlay
  have hencodable : ∀ m' ∈ [m], m'.withMsgId.Encodable :=
    fun m' hm' => List.mem_singleton.1 hm' ▸ hm.withMsgId
  obtain ⟨inBuffer, _, _, hdecode, _⟩ :=
    decode_stream hencodable hlay hc.inBuffer_proper [] (Nat.lt_succ_self _)
  refine ⟨inBuffer, fun fuel hfuel => ?_⟩
  have hrun : decode fuel [] c.inBuffer = some (inBuffer, [m.delivered]) :=
    Loop.run_mono hfuel hdecode
  rw [excute_client_eq hc.connectionType_eq, hrun]
  rfl

end Excute

end TcpConnection

namespace ClientCall

theorem resume_fire_false (call : ClientCall) :
    call.resume (call.client.connection.fire false) false = call := by
  simp [resume, TcpConnection.fire]

theorem exists_connectLoop {call : ClientCall} (htimeout : call.isTimeout = false)
    {results : List (Hooked ConnectResult)} (h : ConnectsInTime call.client.connection results) :
    ∃ call', connectLoop results call = some (call', .connected) ∧
      call'.client.connection = call.client.connection.setState .connected := by
  by_cases hstate : call.client.connection.state = .connected
  · refine ⟨call, by unfold connectLoop; rw [if_pos hstate], ?_⟩
    rw [TcpConnection.setState, ← hstate]
  · obtain ⟨n, rest, rfl⟩ := h.resolve_left hstate
    induction n with
    | zero =>
        rw [List.replicate_zero, List.nil_append, connectLoop, if_neg hstate]
        simp only [resume_fire_false]
        exact ⟨_, rfl, rfl⟩
    | succ n ih =>
        rw [List.replicate_succ, List.cons_append, connectLoop, if_neg hstate]
        simp only [resume_fire_false, htimeout, Bool.false_eq_true, if_false]
        exact ih (Or.inr ⟨n, rest, rfl⟩)

section Reply

variable {Method Message : Type} (d : RpcDispatcher Method Message) (socket : ℤ)

theorem replyBody_of_onRead {fuel : ℕ} {msgId : Bytes} {call : ClientCall}
    {results rest : List (Hooked ReadResult)} {c c' : TcpConnection}
    {calls : List (Invocation Method Message)}
    (hnone : call.client.connection.replyMsg msgId = none)
    (hread : call.client.connection.onRead results = some (c, rest)) (htime : c.isOverTime = false)
    (hopen : c.state ≠ .closed) (hexcute : c.excute d fuel = some (c', calls)) :
    Loop.Again (replyBody d fuel msgId socket) (call, results)
      ({ call.resume c (fired results rest) with client.connection := c' }, rest) := by
  have hres : call.client.connection.getResPackageData msgId = none := by
    rw [TcpConnection.getResPackageData, hnone, Option.map_none]
  simp only [Loop.Again, replyBody, hres, hread, htime, Bool.false_eq_true, if_false, if_neg hopen,
    hexcute]

theorem replyBody_of_stored (call : ClientCall) {m : TinyPBProtocol} {msgId : Bytes}
    (hstored : call.client.connection.replyMsg msgId = some m)
    (results : List (Hooked ReadResult)) :
    ∃ client, ∀ fuel, replyBody d fuel msgId socket (call, results) =
      .leave (client, { rt := 0, res := some m }) := by
  simp only [replyBody, TcpConnection.getResPackageData, hstored, Option.map_some]
  exact ⟨_, fun _ => rfl⟩

/-- The loop that waits for the reply `m` returns it, after finitely many rounds. -/
theorem exists_run_replyBody {m : TinyPBProtocol} (hm : m.Encodable) (hid : m.msgId ≠ [])
    {c : TcpConnection} {results : List (Hooked ReadResult)} (hc : c.IsClient)
    (hnone : c.replyMsg m.msgId = none)
    (harrives : Arrives (stream [m]) c results) (call : ClientCall)
    (hcall : call.client.connection = c) :
    ∃ client n, ∀ fuel ≥ 2, ∀ k ≥ n,
      Loop.run (replyBody d fuel m.msgId socket) k (call, results) =
        some (client, { rt := 0, res := some m.delivered }) := by
  have hmsgId : m.delivered.msgId = m.msgId := by rw [delivered_eq hid]; rfl
  induction harrives generalizing call with
  | @now c c₁ results rest hread htime hopen hbytes =>
      subst hcall
      have hc₁ := (hc.keeps_onRead hread).isClient
      obtain ⟨inBuffer, hexcute⟩ := hc₁.excute_of_packet (d := d) hm hbytes
      obtain ⟨_, _, _, _, heq, _⟩ := TcpConnection.onRead_frame hread
      have hreply : c₁.replyMsg m.delivered.msgId = none := by
        rw [hmsgId, heq]
        exact hnone
      obtain ⟨client, hleave⟩ := replyBody_of_stored d socket
        { call.resume c₁ (fired results rest) with
          client.connection := { c₁ with
            inBuffer := inBuffer
            replyMsg := TcpConnection.insertReply c₁.replyMsg m.delivered } }
        (TcpConnection.insertReply_self hreply) rest
      refine ⟨client, 2, fun fuel hfuel k hk => ?_⟩
      obtain ⟨k, rfl⟩ : ∃ k', k = k' + 1 + 1 := ⟨k - 2, by omega⟩
      have hagain := replyBody_of_onRead d socket hnone hread htime hopen (hexcute fuel hfuel)
      rw [Loop.run_of_again hagain, Loop.run_of_leave (hmsgId ▸ hleave fuel)]
  | @later c c₁ results rest hread htime hopen hfinds hrest ih =>
      subst hcall
      have hc₁ := (hc.keeps_onRead hread).isClient
      have hexcute : ∀ fuel ≥ 2, c₁.excute d fuel = some (c₁, []) :=
        fun fuel hfuel => hc₁.excute_of_findsNone hfinds (by omega)
      obtain ⟨_, _, _, _, heq, _⟩ := TcpConnection.onRead_frame hread
      obtain ⟨client, n, hrun⟩ := ih hc₁ (by rw [heq]; exact hnone)
        { call.resume c₁ (fired results rest) with client.connection := c₁ } rfl
      refine ⟨client, n + 1, fun fuel hfuel k hk => ?_⟩
      obtain ⟨k, rfl⟩ : ∃ k', k = k' + 1 := ⟨k - 1, by omega⟩
      have hagain := replyBody_of_onRead d socket hnone hread htime hopen (hexcute fuel hfuel)
      rw [Loop.run_of_again hagain]
      exact hrun fuel hfuel k (by omega)

end Reply

end ClientCall

/-- A call that is answered in time with the packet of `m` returns `m`. -/
theorem TcpClient.Idle.exists_reply {client : TcpClient} (hidle : client.Idle)
    {Method Message : Type} (d : RpcDispatcher Method Message) {m : TinyPBProtocol}
    (hm : m.Encodable) (hid : m.msgId ≠ [])
    (hnone : client.connection.replyMsg m.msgId = none) {script : Script}
    (hanswered : AnsweredInTime client.connection script (stream [m])) :
    ∃ client' sent n, ∀ fuel ≥ n, client.sendAndRecvTinyPb d fuel m.msgId script =
      some (client', { rt := 0, res := some m.delivered, sent := sent }) := by
  obtain ⟨hconnects, c, sent, rest, hwrite, htime, harrives⟩ := hanswered
  obtain ⟨call, hloop, hconnection⟩ : ∃ call, ClientCall.connectLoop script.connects
      client.startCall = some (call, .connected) ∧
      call.client.connection = client.connection.setState .connected :=
    ClientCall.exists_connectLoop rfl hconnects
  have hconnected : (client.connection.setState .connected).IsClient :=
    (hidle.isClient.keeps_flags .connected _ _).isClient
  have hc := (hconnected.keeps_onWrite hwrite).isClient
  have hreply : c.replyMsg m.msgId = none := by
    obtain ⟨_, _, rfl, _⟩ := TcpConnection.onWrite_spec hwrite
    exact hnone
  obtain ⟨client', n, hrun⟩ := ClientCall.exists_run_replyBody d script.socket hm hid hc hreply
    harrives (call.resume c (ClientCall.fired script.writes rest)) rfl
  refine ⟨client', sent, max 2 n, fun fuel hfuel => ?_⟩
  have hexit := hrun fuel (le_of_max_le_left hfuel) fuel (le_of_max_le_right hfuel)
  have hstate : ¬ call.client.connection.state ≠ .connected := by
    rw [hconnection]
    exact not_not_intro rfl
  have hwrite' : (call.client.connection.setState .connected).onWrite script.writes =
      some (c, sent, rest) := by
    rw [hconnection]
    exact hwrite
  rw [sendAndRecvTinyPb, hloop, Option.bind_eq_bind, Option.bind_some]
  simp only [ClientCall.sendAndRecv, if_neg hstate, hwrite', Option.bind_eq_bind, Option.bind_some,
    htime, Bool.false_eq_true, if_false, hexit, Option.map_some]

end Rocket
