import Rocket.Net.Rpc.RpcChannel
import Rocket.Net.Tcp.ClientCall

/-!
# What CallMethod leaves

A call that gets as far as the client puts the packet of its request behind what
the out-buffer holds, and no way out of the call takes it from there again. So
the out-buffer holds the packets of all calls of a run, and a call that fails is
never as if it had not been made.
-/

namespace Rocket

open Foundation TinyPBProtocol

namespace RpcChannel

variable {Method Message : Type} {Message' : Type} {level : LogLevel}
  {d : RpcDispatcher Method Message'} {fuel : ℕ} {channel channel' : RpcChannel}
  {call : MethodCall Message} {script : Script} {result : CallResult Message}

def loaded (channel : RpcChannel) (outBuffer : TcpBuffer) : TcpClient :=
  { channel.client with connection.outBuffer := outBuffer }

theorem callMethod_eq (hinit : channel.isInit = true) (hserialize : call.serializeToString.1 = true)
    {messages : List TinyPBProtocol} {outBuffer : TcpBuffer}
    (hencode : TinyPBCoder.encode [call.request] channel.client.connection.outBuffer =
      some (messages, outBuffer)) :
    channel.callMethod level d fuel call script =
      ((channel.loaded outBuffer).sendAndRecvTinyPb d fuel call.request.withMsgId.msgId script).bind
        fun r => (finish level r.1 call.controllerWithId call r.2).map fun result =>
          ({ channel with client := r.1 }, result) := by
  have hmessages : messages = [call.request.withMsgId.withLengths] := by
    rw [TinyPBCoder.encode_cons, Option.ite_none_right_eq_some, Option.bind_eq_some_iff] at hencode
    obtain ⟨_, _, _, hrest⟩ := hencode
    cases hrest
    rfl
  rw [callMethod, if_neg (by simp [hinit]), if_neg (by simp [hserialize]), hencode, hmessages]
  rfl

theorem received_of_finish {client : TcpClient} {controller : RpcController}
    {received : Received} (h : finish level client controller call received = some result) :
    result.received = some received := by
  unfold finish at h
  split at h
  · cases h
    rfl
  · rcases Option.bind_eq_some_iff.1 h with ⟨res, _, h⟩
    split at h
    · cases h
      rfl
    · split at h
      · obtain ⟨-, heq⟩ := Option.ite_none_left_eq_some.1 h
        cases heq
        rfl
      · cases h
        rfl

/-- A call either stops before it reaches the client, or is what the client
returns. -/
theorem callMethod_cases
    (h : channel.callMethod level d fuel call script = some (channel', result)) :
    (channel' = channel ∧ result.received = none) ∨
      ∃ messages outBuffer received,
        TinyPBCoder.encode [call.request] channel.client.connection.outBuffer =
          some (messages, outBuffer) ∧
        (channel.loaded outBuffer).sendAndRecvTinyPb d fuel call.request.withMsgId.msgId script =
          some (channel'.client, received) ∧ result.received = some received := by
  by_cases hinit : channel.isInit = true
  · by_cases hserialize : call.serializeToString.1 = true
    · cases hencode : TinyPBCoder.encode [call.request] channel.client.connection.outBuffer with
      | none =>
          rw [callMethod, if_neg (by simp [hinit]), if_neg (by simp [hserialize]), hencode] at h
          cases h
      | some encoded =>
          obtain ⟨messages, outBuffer⟩ := encoded
          rw [callMethod_eq hinit hserialize hencode, Option.bind_eq_some_iff] at h
          obtain ⟨⟨client, received⟩, hsend, hfinish⟩ := h
          rcases Option.map_eq_some_iff.1 hfinish with ⟨result', hfinish, heq⟩
          cases heq
          exact Or.inr ⟨messages, outBuffer, received, rfl, hsend, received_of_finish hfinish⟩
    · rw [callMethod, if_neg (by simp [hinit]), if_pos (by simp [hserialize])] at h
      cases h
      exact Or.inl ⟨rfl, rfl⟩
  · rw [callMethod, if_pos (by simp [hinit])] at h
    cases h
    exact Or.inl ⟨rfl, rfl⟩

/-- What a call that has reached the client has done to it: its packet is in the
out-buffer, and where it has failed, the client has a new socket that nothing but
`m_fd` knows of. -/
structure Reached (before after : TcpClient) (request : TinyPBProtocol) (socket : ℤ)
    (received : Received) : Prop where
  idle : after.Idle
  readable_eq : after.connection.outBuffer.readable =
    before.connection.outBuffer.readable ++ request.withMsgId.packet
  fd_eq : after.connection.fd = before.connection.fd
  fdEvent_eq : after.fdEvent = before.fdEvent
  reopened : received.rt ≠ 0 → after.fd = socket ∧ after.isSocketConnected = false

theorem idle_loaded (hidle : channel.client.Idle) {messages : List TinyPBProtocol}
    {outBuffer : TcpBuffer}
    (hencode : TinyPBCoder.encode [call.request] channel.client.connection.outBuffer =
      some (messages, outBuffer)) :
    (channel.loaded outBuffer).Idle ∧ outBuffer.readable =
      channel.client.connection.outBuffer.readable ++ call.request.withMsgId.packet := by
  obtain ⟨hsound, hread, _⟩ := TinyPBCoder.encode_spec hidle.isClient.outBuffer_sound hencode
  rw [stream_cons, stream_nil, List.append_nil] at hread
  exact ⟨⟨⟨hidle.isClient.connectionType_eq, hidle.isClient.inBuffer_proper,
    hidle.isClient.inBuffer_lt_int, hsound⟩, hidle.notOverTime⟩, hread⟩

theorem reached_of_callMethod (hidle : channel.client.Idle)
    (h : channel.callMethod level d fuel call script = some (channel', result))
    {received : Received} (hreceived : result.received = some received) :
    Reached channel.client channel'.client call.request script.socket received := by
  rcases callMethod_cases h with
    ⟨_, hnone⟩ | ⟨messages, outBuffer, received', hencode, hsend, hsome⟩
  · cases hnone.symm.trans hreceived
  · cases hsome.symm.trans hreceived
    obtain ⟨hloaded, hread⟩ := idle_loaded hidle hencode
    have hreturns := hloaded.returns hsend
    refine ⟨⟨hreturns.keeps.isClient, hreturns.notOverTime⟩, ?_, hreturns.keeps.fd_eq,
      hreturns.fdEvent_eq, hreturns.reopened⟩
    rw [hreturns.keeps.outBuffer_eq]
    exact hread

/-- The packet that an operation with the given result has put into the out-buffer:
that of the request, when the call has reached the client. -/
def encoded : Op Message × Option (CallResult Message) → Bytes
  | (.call _ call _, some result) =>
      if result.received.isSome then call.request.withMsgId.packet else []
  | _ => []

theorem step_spec {op : Op Message} {out : Option (CallResult Message)}
    (hidle : channel.client.Idle) (h : step level d channel op = some (channel', out)) :
    channel'.client.Idle ∧ channel'.client.connection.outBuffer.readable =
      channel.client.connection.outBuffer.readable ++ encoded (op, out) := by
  cases op with
  | init =>
      cases h
      exact ⟨hidle, (List.append_nil _).symm⟩
  | call fuel call script =>
      rcases Option.map_eq_some_iff.1 h with ⟨⟨channel'', result⟩, hcall, heq⟩
      cases heq
      cases hreceived : result.received with
      | none =>
          have hempty : encoded (Op.call fuel call script, some result) = [] := by
            simp [encoded, hreceived]
          rcases callMethod_cases hcall with ⟨rfl, _⟩ | ⟨_, _, _, _, _, hsome⟩
          · exact ⟨hidle, by rw [hempty, List.append_nil]⟩
          · cases hreceived.symm.trans hsome
      | some received =>
          have hpacket : encoded (Op.call fuel call script, some result) =
              call.request.withMsgId.packet := by simp [encoded, hreceived]
          have hreached := reached_of_callMethod hidle hcall hreceived
          exact ⟨hreached.idle, hpacket ▸ hreached.readable_eq⟩

/-- The out-buffer keeps the packets of all calls of a run that have reached the
client, whether they have succeeded or not. -/
theorem run_readable {ops : List (Op Message)} {outs : List (Option (CallResult Message))}
    (hidle : channel.client.Idle)
    (hrun : (machine level d).run channel ops = some (channel', outs)) :
    channel'.client.connection.outBuffer.readable =
      channel.client.connection.outBuffer.readable ++ (ops.zip outs).flatMap encoded := by
  induction ops generalizing channel outs with
  | nil =>
      cases hrun
      exact (List.append_nil _).symm
  | cons op ops ih =>
      obtain ⟨channel₁, out, outs', hstep, hrest, rfl⟩ :=
        (Machine.run_cons_eq_some_iff (machine level d) channel op ops channel' outs).1 hrun
      obtain ⟨hidle₁, hread⟩ := step_spec hidle hstep
      rw [ih hidle₁ hrest, hread, List.append_assoc, List.zip_cons_cons, List.flatMap_cons]

/-- Between the calls of a run the client is idle. -/
theorem idle_of_run {peerAddr : Bytes} {fd : ℤ} {ops : List (Op Message)}
    {outs : List (Option (CallResult Message))}
    (hrun : (machine level d).run (new peerAddr fd) ops = some (channel, outs)) :
    channel.client.Idle :=
  (machine level d).run_invariant (I := fun channel => channel.client.Idle)
    (fun _ _ _ _ hidle hstep => (step_spec hidle hstep).1) (TcpClient.idle_new peerAddr fd) hrun

def noServices : RpcDispatcher Unit Bytes := ⟨fun _ => none⟩

def orderCall (msgId : Bytes) : MethodCall Bytes where
  fullName := ascii "Order.makeOrder"
  controller := { msgId := msgId }
  serializeToString := (true, [0x08, 100])
  parseFromString data := some data
  hasDone := true
  genMsgId := ascii "0"

def orderChannel : RpcChannel := init (new (ascii "127.0.0.1:12345") 7)

end RpcChannel

end Rocket
