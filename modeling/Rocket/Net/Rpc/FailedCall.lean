import Rocket.Net.Rpc.CallMethod

/-!
# What a failed call leaves behind

None of the exits of `sendAndRecvTinyPb` cleans up all of the client. The packet
of the failed call stays in the out-buffer whatever the exit, the new socket is
known to `m_fd` only, and after a timeout behind the loop that connects the
connection still counts as connected.
-/

namespace Rocket

open Foundation TinyPBProtocol

namespace RpcChannel

/-- The client is as if the call had not been made: its connection is not taken
for connected, all three descriptors are the same one, and neither the buffers nor
the replies hold anything that they did not hold before the call. -/
structure LeftAsNew (before after : TcpClient) : Prop where
  connected : after.connection.state = .connected → after.isSocketConnected = true
  fd_eq : after.connection.fd = after.fd
  fdEvent_eq : after.fdEvent = after.fd
  outBuffer : after.connection.outBuffer.readable <:+ before.connection.outBuffer.readable
  inBuffer : after.connection.inBuffer.readable <:+ before.connection.inBuffer.readable
  replyMsg : ∀ id m, after.connection.replyMsg id = some m → before.connection.replyMsg id = some m

section Reached

variable {before after : TcpClient} {request : TinyPBProtocol} {socket : ℤ} {received : Received}

theorem Reached.not_asNew (h : Reached before after request socket received) :
    ¬ LeftAsNew before after := by
  intro hnew
  have hle := hnew.outBuffer.length_le
  have hge := request.withMsgId.packetLength_ge
  rw [h.readable_eq, List.length_append, length_packet] at hle
  omega

/-- After a call that has failed, the descriptors agree when the system has given
the new socket the descriptor of the old one. -/
theorem Reached.descriptors_iff (h : Reached before after request socket received)
    (hfailed : received.rt ≠ 0) :
    (after.connection.fd = after.fd ∧ after.fdEvent = after.fd) ↔
      socket = before.connection.fd ∧ socket = before.fdEvent := by
  rw [h.fd_eq, h.fdEvent_eq, (h.reopened hfailed).1, eq_comm, @eq_comm _ before.fdEvent]

end Reached

/-- `sendAndRecvTinyPb` has returned an error. -/
def Fails {Message : Type} (result : CallResult Message) : Prop :=
  ∃ received, result.received = some received ∧ received.rt ≠ 0

/-- In every run of calls on a channel, no call in which `sendAndRecvTinyPb` returns
an error leaves the client as if it had not been made. -/
theorem not_leftAsNew {Method Message Message' : Type} {level : LogLevel}
    {d : RpcDispatcher Method Message'}
    {peerAddr : Bytes} {fd : ℤ} {ops : List (Op Message)}
    {outs : List (Option (CallResult Message))} {channel channel' : RpcChannel}
    (hrun : (machine level d).run (new peerAddr fd) ops = some (channel, outs)) {fuel : ℕ}
    {call : MethodCall Message} {script : Script} {result : CallResult Message}
    (hcall : channel.callMethod level d fuel call script = some (channel', result))
    (hfails : Fails result) : ¬ LeftAsNew channel.client channel'.client := by
  obtain ⟨received, hreceived, _⟩ := hfails
  exact (reached_of_callMethod (idle_of_run hrun) hcall hreceived).not_asNew

section Orders

/-- The peer refuses the connection. The new socket gets the descriptor of the
old one. -/
def refusedScript : Script where
  connects := [⟨.refused, false⟩]
  writes := []
  reads := []
  socket := 7
  sysError := ascii "Connection refused"

/-- The call connects, and the socket takes all that it is given. The timer fires
while the call waits for the reply. -/
def timeoutScript (sent : ℕ) : Script where
  connects := [⟨.success, false⟩]
  writes := [⟨.accepted sent, false⟩]
  reads := [⟨.eagain, true⟩]
  socket := 7
  sysError := []

/-- `connect` is never called, and `write` fails until the timer fires. -/
def brokenScript : Script where
  connects := []
  writes := [⟨.error, false⟩, ⟨.error, true⟩]
  reads := []
  socket := 7
  sysError := []

/-- A call that is refused. -/
theorem not_leftAsNew_refused :
    ∃ channel result,
      orderChannel.callMethod .debug noServices 3 (orderCall (ascii "1")) refusedScript =
        some (channel, result) ∧
      Fails result ∧ ¬ LeftAsNew orderChannel.client channel.client := by
  have hinit : (machine .debug noServices).run (new (ascii "127.0.0.1:12345") 7)
      [(.init : Op Bytes)] = some (orderChannel, [none]) := rfl
  have hrun : (orderChannel.callMethod .debug noServices 3 (orderCall (ascii "1"))
      refusedScript).map (fun p => p.2.received) = some (some { rt := errorPeerClosed }) := by decide +kernel
  rcases Option.map_eq_some_iff.1 hrun with ⟨⟨channel, result⟩, hcall, hreceived⟩
  have hfails : Fails result := ⟨_, hreceived, by decide⟩
  exact ⟨channel, result, hcall, hfails, not_leftAsNew hinit hcall hfails⟩

/-- A call that times out while it waits for the reply leaves its packet behind and
a connection that counts as connected on a socket that is not. After a call that is
refused, the next one sends the packets of both; and after that one times out, a
third one does not connect. -/
theorem leaves_packet_and_state :
    (∃ channel result,
      orderChannel.callMethod .debug noServices 3 (orderCall (ascii "1")) (timeoutScript 44) =
          some (channel, result) ∧
        Fails result ∧ channel.client.connection.state = .connected ∧
        channel.client.isSocketConnected = false ∧
        channel.client.connection.outBuffer.readable =
          stream [(orderCall (ascii "1")).request] ∧
        ¬ LeftAsNew orderChannel.client channel.client) ∧
    ((machine .debug noServices).run orderChannel [.call 3 (orderCall (ascii "1")) refusedScript,
        .call 3 (orderCall (ascii "2")) (timeoutScript 88),
        .call 3 (orderCall (ascii "3")) brokenScript]).map
      (fun p => p.2.map fun out => out.bind CallResult.received) =
      some [some { rt := errorPeerClosed },
        some { rt := errorRpcCallTimeout
               sent := stream [(orderCall (ascii "1")).request, (orderCall (ascii "2")).request] },
        some { rt := errorRpcCallTimeout }] := by
  have hrun : (orderChannel.callMethod .debug noServices 3 (orderCall (ascii "1"))
      (timeoutScript 44)).map (fun p => (p.2.received.map Received.rt, p.1.client.connection.state,
        p.1.client.isSocketConnected, p.1.client.connection.outBuffer.readable)) =
      some (some errorRpcCallTimeout, .connected, false,
        stream [(orderCall (ascii "1")).request]) := by decide +kernel
  refine ⟨?_, by decide +kernel⟩
  rcases Option.map_eq_some_iff.1 hrun with ⟨⟨channel, result⟩, hcall, heq⟩
  simp only [Prod.mk.injEq] at heq
  obtain ⟨hrt, hstate, hsocket, hread⟩ := heq
  rcases Option.map_eq_some_iff.1 hrt with ⟨received, hreceived, hrt⟩
  have hfails : Fails result := ⟨received, hreceived, by rw [hrt]; decide⟩
  refine ⟨channel, result, hcall, hfails, hstate, hsocket, hread, fun hnew => ?_⟩
  exact absurd (hnew.connected hstate) (by rw [hsocket]; decide)

end Orders

end RpcChannel

end Rocket
