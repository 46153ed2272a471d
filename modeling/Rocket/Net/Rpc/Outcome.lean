import Rocket.Net.Rpc.CallMethod
import Rocket.Net.Tcp.Reply

/-!
# What reaches the caller

When the packet of the dispatcher's response arrives in time, `CallMethod` passes
on what the dispatcher has said: the error code and the text of the stage that
failed, or the result of the method. An error gets to the caller only if the logger
does not format the line about it (`callMethod_outcome_iff`). The assumptions on protobuf
are gathered in `Protobuf`.
-/

namespace Rocket

open Foundation TinyPBProtocol RpcDispatcher

/-- The controller carries no error. -/
structure RpcController.NoError (c : RpcController) : Prop where
  errorCode_eq : c.errorCode = 0
  errorInfo_eq : c.errorInfo = []
  isFailed_eq : c.isFailed = false

namespace RpcChannel

variable {Method Message : Type}

/-- What protobuf does for the response of a call: parsing inverts serializing,
parsing an empty string succeeds, and a message that cannot be serialized leaves
the string cleared. -/
structure Protobuf (server : RpcDispatcher Method Message) (call : MethodCall Message) : Prop where
  parse_serialize : ∀ service inv data, Reaches server call.request service inv →
    answer service inv = (true, data) →
      call.parseFromString data =
        some (service.callMethod inv.method inv.controller inv.request)
  parse_nil : (call.parseFromString []).isSome
  serialize_fails : ∀ service inv data, Reaches server call.request service inv →
    answer service inv = (false, data) → data = []

/-- The result of the call says what the response of the dispatcher says. -/
structure Outcome (server : RpcDispatcher Method Message) (call : MethodCall Message)
    (response : TinyPBProtocol) (result : CallResult Message) : Prop where
  error : ∀ e s, e ≠ 0 → response.errCode = e → response.errInfo = s →
    result.controller.errorCode = e ∧ result.controller.errorInfo = s ∧
      result.controller.isFailed = true ∧ result.doneRuns = 0
  success : response.errCode = 0 →
    ∃ service inv data, Reaches server call.request service inv ∧
      answer service inv = (true, data) ∧ result.response = call.parseFromString data ∧
      result.response = some (service.callMethod inv.method inv.controller inv.request) ∧
      result.controller.NoError ∧ result.doneRuns = if call.hasDone then 1 else 0

/-- The request passes all stages of the dispatcher, or the level of the logger is one at which
errors are not logged. -/
def LogsNoError (level : LogLevel) (server : RpcDispatcher Method Message)
    (request : TinyPBProtocol) : Prop :=
  level.logsErrors = true → ∃ data, Succeeds server request data

section Outcome

variable {server : RpcDispatcher Method Message} {call : MethodCall Message}

/-- The data of a response parses, also when the response carries an error. -/
theorem Protobuf.parse_response (h : Protobuf server call) :
    ∃ message, call.parseFromString (server.dispatch call.request {}).1.pbData = some message := by
  rw [← Option.isSome_iff_exists]
  rcases pbData_dispatch server call.request with
    hempty | ⟨service, inv, success, hreaches, hanswer⟩
  · rw [hempty]
    exact h.parse_nil
  · cases success with
    | true =>
        rw [h.parse_serialize service inv _ hreaches hanswer]
        rfl
    | false =>
        rw [h.serialize_fails service inv _ hreaches hanswer]
        exact h.parse_nil

theorem noError_controllerWithId (h : call.controller.NoError) : call.controllerWithId.NoError := by
  unfold MethodCall.controllerWithId
  split_ifs
  · exact ⟨h.errorCode_eq, h.errorInfo_eq, h.isFailed_eq⟩
  · exact h

section Finish

variable {response : TinyPBProtocol} {message : Message} {received : Received}

/-- The end of `CallMethod` when the client has returned the response. -/
theorem finish_eq (level : LogLevel) (hreplies : Replies server call.request response)
    (hparse : call.parseFromString response.pbData = some message)
    (hid : call.request.msgId ≠ []) (client : TcpClient) (hrt : received.rt = 0)
    (hres : received.res = some response.delivered) :
    finish level client call.controllerWithId call received =
      if response.errCode ≠ 0 then
        if level.logsErrors then none
        else
          some
            { controller := call.controllerWithId.setError response.errCode response.errInfo
              response := some message
              received := some received }
      else
        some
          { controller := call.controllerWithId
            response := some message
            doneRuns := if call.hasDone then 1 else 0
            received := some received } := by
  have hdelivered := delivered_eq (hreplies.msgId_eq.trans_ne hid)
  have hpbData : response.delivered.pbData = response.pbData := by rw [hdelivered]; rfl
  have herrCode : response.delivered.errCode = response.errCode := by rw [hdelivered]; rfl
  have herrInfo : response.delivered.errInfo = response.errInfo := by rw [hdelivered]; rfl
  simp only [finish, hrt, ne_eq, not_true_eq_false, if_false, hres, Option.bind_eq_bind,
    Option.bind_some, hpbData, hparse, herrCode, herrInfo]

theorem exists_finish {level : LogLevel} (hlog : LogsNoError level server call.request)
    (hproto : Protobuf server call) (hcontroller : call.controller.NoError)
    (hreplies : Replies server call.request response)
    (hparse : call.parseFromString response.pbData = some message)
    (hid : call.request.msgId ≠ []) (client : TcpClient) (hrt : received.rt = 0)
    (hres : received.res = some response.delivered) :
    ∃ result, finish level client call.controllerWithId call received = some result ∧
      Outcome server call response result := by
  rw [finish_eq level hreplies hparse hid client hrt hres]
  by_cases hcode : response.errCode = 0
  · obtain ⟨data, service, inv, hreaches, hanswer⟩ := hreplies.errCode_eq_zero_iff.1 hcode
    have hdata := hreplies.pbData_eq data ⟨service, inv, hreaches, hanswer⟩
    have hmessage := hproto.parse_serialize service inv data hreaches hanswer
    rw [if_neg (not_not_intro hcode)]
    refine ⟨_, rfl, fun e s he hcode' => absurd (hcode'.symm.trans hcode) he, fun _ => ?_⟩
    exact ⟨service, inv, data, hreaches, hanswer, (hdata ▸ hparse).symm,
      (hdata ▸ hparse).symm.trans hmessage, noError_controllerWithId hcontroller, rfl⟩
  · have hlevel : ¬ level.logsErrors = true := fun h =>
      hcode (hreplies.errCode_eq_zero_iff.2 (hlog h))
    rw [if_pos hcode, if_neg hlevel]
    refine ⟨_, rfl, fun e s _ hcode' hinfo => ?_, fun hzero => absurd hzero hcode⟩
    exact ⟨hcode', hinfo, rfl, rfl⟩

/-- The line about an error in the response cannot be formatted. -/
theorem finish_eq_none {level : LogLevel} (hlog : ¬ LogsNoError level server call.request)
    (hreplies : Replies server call.request response)
    (hparse : call.parseFromString response.pbData = some message)
    (hid : call.request.msgId ≠ []) (client : TcpClient) (hrt : received.rt = 0)
    (hres : received.res = some response.delivered) :
    finish level client call.controllerWithId call received = none := by
  obtain ⟨hlevel, hfails⟩ := Classical.not_imp.1 hlog
  rw [finish_eq level hreplies hparse hid client hrt hres,
    if_pos fun hcode => hfails (hreplies.errCode_eq_zero_iff.1 hcode), if_pos hlevel]

end Finish

end Outcome

/-- A call that is answered in time with the packet of a message ends with what the client
returns for it. -/
theorem exists_callMethod_eq {Method' Message' : Type} (level : LogLevel)
    (d : RpcDispatcher Method' Message')
    {call : MethodCall Message} (hserialize : call.serializeToString.1 = true)
    (hid : call.request.msgId ≠ []) {reply : TinyPBProtocol}
    (hreplyId : reply.msgId = call.request.msgId) (hencodable : reply.Encodable)
    {frame : Bytes} {response : TinyPBProtocol}
    (hframe : TinyPBCoder.encodeTinyPB reply = some (frame, response))
    {channel : RpcChannel} (hinit : channel.isInit = true) (hidle : channel.client.Idle)
    (hnone : channel.client.connection.replyMsg call.request.msgId = none)
    {messages : List TinyPBProtocol} {outBuffer : TcpBuffer}
    (hencode : TinyPBCoder.encode [call.request] channel.client.connection.outBuffer =
      some (messages, outBuffer))
    {script : Script}
    (hanswered : AnsweredInTime (channel.loaded outBuffer).connection script frame) :
    ∃ client sent n, ∀ fuel ≥ n, channel.callMethod level d fuel call script =
      (finish level client call.controllerWithId call
        { rt := 0, res := some reply.delivered, sent := sent }).map fun result =>
          ({ channel with client := client }, result) := by
  have hstream : frame = stream [reply] := by
    rw [stream_cons, stream_nil, List.append_nil]
    exact (congrArg Prod.fst ((TinyPBCoder.encodeTinyPB_eq_some_iff _ _).1 hframe).2).symm
  have hloaded := (idle_loaded hidle hencode).1
  obtain ⟨client, sent, n, hsend⟩ := hloaded.exists_reply d hencodable (hreplyId.trans_ne hid)
    (hreplyId ▸ hnone) (hstream ▸ hanswered)
  have hrequestId : call.request.withMsgId.msgId = reply.msgId := by
    rw [withMsgId, if_neg hid, hreplyId]
  refine ⟨client, sent, n, fun fuel hfuel => ?_⟩
  rw [callMethod_eq hinit hserialize hencode, hrequestId, hsend fuel hfuel, Option.bind_some]

/-- A call that is answered in time with the packet of the response that the dispatcher `server`
gives to its request. -/
structure AnsweredCall (server : RpcDispatcher Method Message) (channel : RpcChannel)
    (call : MethodCall Message) (script : Script) : Prop where
  protobuf : Protobuf server call
  noError : call.controller.NoError
  serializes : call.serializeToString.1 = true
  msgId_ne : call.request.msgId ≠ []
  encodable : (server.dispatch call.request {}).1.Encodable
  isInit : channel.isInit = true
  idle : channel.client.Idle
  fresh : channel.client.connection.replyMsg call.request.msgId = none
  answered : ∃ frame response messages outBuffer,
    TinyPBCoder.encodeTinyPB (server.dispatch call.request {}).1 = some (frame, response) ∧
      TinyPBCoder.encode [call.request] channel.client.connection.outBuffer =
        some (messages, outBuffer) ∧
      AnsweredInTime (channel.loaded outBuffer).connection script frame

section Answered

variable {Method' Message' : Type} {level : LogLevel} {server : RpcDispatcher Method Message}
  {channel channel' : RpcChannel} {call : MethodCall Message} {script : Script}
  {result : CallResult Message}

/-- The client returns the response, and the end of `CallMethod` decides. -/
theorem AnsweredCall.exists_eq (level : LogLevel) (d : RpcDispatcher Method' Message')
    (h : AnsweredCall server channel call script) :
    ∃ client received n, received.rt = 0 ∧
      received.res = some (server.dispatch call.request {}).1.delivered ∧
      ∀ fuel ≥ n, channel.callMethod level d fuel call script =
        (finish level client call.controllerWithId call received).map fun result =>
          ({ channel with client := client }, result) := by
  obtain ⟨frame, response, messages, outBuffer, hframe, hencode, hanswered⟩ := h.answered
  have hreplies := (dispatch_spec server call.request).1
  obtain ⟨client, sent, n, hcall⟩ := exists_callMethod_eq level d h.serializes h.msgId_ne
    hreplies.msgId_eq h.encodable hframe h.isInit h.idle h.fresh hencode hanswered
  exact ⟨client, _, n, rfl, rfl, hcall⟩

theorem AnsweredCall.exists_result (d : RpcDispatcher Method' Message')
    (h : AnsweredCall server channel call script) (hlog : LogsNoError level server call.request) :
    ∃ channel' result n,
      (∀ fuel ≥ n, channel.callMethod level d fuel call script = some (channel', result)) ∧
        Outcome server call (server.dispatch call.request {}).1 result := by
  obtain ⟨message, hparse⟩ := h.protobuf.parse_response
  obtain ⟨client, received, n, hrt, hres, hcall⟩ := h.exists_eq level d
  obtain ⟨result, hfinish, houtcome⟩ := exists_finish hlog h.protobuf h.noError
    (dispatch_spec server call.request).1 hparse h.msgId_ne client hrt hres
  refine ⟨{ channel with client := client }, result, n, fun fuel hfuel => ?_, houtcome⟩
  rw [hcall fuel hfuel, hfinish, Option.map_some]

/-- A call that returns has not come to the line about an error. -/
theorem AnsweredCall.logsNoError (d : RpcDispatcher Method' Message')
    (h : AnsweredCall server channel call script) {n : ℕ}
    (hcall : ∀ fuel ≥ n, channel.callMethod level d fuel call script = some (channel', result)) :
    LogsNoError level server call.request := by
  by_contra hlog
  obtain ⟨message, hparse⟩ := h.protobuf.parse_response
  obtain ⟨client, received, n', hrt, hres, hcall'⟩ := h.exists_eq level d
  have hnone := hcall' (max n n') (le_max_right n n')
  rw [finish_eq_none hlog (dispatch_spec server call.request).1 hparse h.msgId_ne client hrt hres,
    hcall (max n n') (le_max_left n n')] at hnone
  cases hnone

/-- When a call is answered in time with the packet of the dispatcher's response to its request,
`CallMethod` returns, and leaves what the response says, iff the response carries no error or
the logger does not format the line about it. -/
theorem callMethod_outcome_iff (level : LogLevel) (d : RpcDispatcher Method' Message')
    (h : AnsweredCall server channel call script) :
    (∃ channel' result n,
      (∀ fuel ≥ n, channel.callMethod level d fuel call script = some (channel', result)) ∧
        Outcome server call (server.dispatch call.request {}).1 result) ↔
      LogsNoError level server call.request := by
  constructor
  · rintro ⟨channel', result, n, hcall, -⟩
    exact h.logsNoError d hcall
  · exact h.exists_result d

end Answered

section Orders

open TcpConnection

/-- What `server` answers to the order. -/
def orderReply (server : RpcDispatcher Unit Bytes) : TinyPBProtocol :=
  (server.dispatch (orderCall (ascii "1")).request {}).1

/-- The order is sent, and the response of `server` arrives in one piece. -/
def replyScript (server : RpcDispatcher Unit Bytes) : Script where
  connects := [⟨.success, false⟩]
  writes := [⟨.accepted 44, false⟩]
  reads := [⟨.bytes (orderReply server).packet, false⟩]
  socket := 7
  sysError := []

def orderOutBuffer : TcpBuffer :=
  ⟨0, 44, (orderCall (ascii "1")).request.packet ++ List.replicate 84 0⟩

theorem encode_orderCall : TinyPBCoder.encode [(orderCall (ascii "1")).request]
    orderChannel.client.connection.outBuffer =
      some ([(orderCall (ascii "1")).request.withLengths], orderOutBuffer) := by decide +kernel

theorem answeredCall_order {server : RpcDispatcher Unit Bytes}
    (hproto : Protobuf server (orderCall (ascii "1"))) (hencodable : (orderReply server).Encodable)
    (hframe : TinyPBCoder.encodeTinyPB (orderReply server) =
      some ((orderReply server).packet, (orderReply server).withLengths))
    (hreads : (((orderChannel.loaded orderOutBuffer).connection.setState .connected).onRead
      (replyScript server).reads).map
        (fun p => (p.1.isOverTime, p.1.state, p.1.inBuffer.readable)) =
      some (false, .connected, (orderReply server).packet)) :
    AnsweredCall server orderChannel (orderCall (ascii "1")) (replyScript server) := by
  refine ⟨hproto, ⟨rfl, rfl, rfl⟩, rfl, by decide, hencodable, rfl, TcpClient.idle_new _ _, rfl,
    _, _, _, _, hframe, encode_orderCall, ?_⟩
  have hwrites : (((orderChannel.loaded orderOutBuffer).connection.setState .connected).onWrite
      [⟨.accepted 44, false⟩]).map (fun p => p.1.isOverTime) = some false := by decide +kernel
  rcases Option.map_eq_some_iff.1 hwrites with ⟨⟨c, sent, rest⟩, hwrite, htime⟩
  obtain ⟨_, _, hc, _⟩ := onWrite_spec hwrite
  have hflag := (congrArg TcpConnection.isOverTime hc).symm.trans htime
  dsimp only at hflag
  rw [hflag] at hc
  subst hc
  rcases Option.map_eq_some_iff.1 hreads with ⟨⟨c, rest'⟩, hread, heq⟩
  simp only [Prod.mk.injEq] at heq
  obtain ⟨htime, hstate, hbytes⟩ := heq
  exact ⟨Or.inr ⟨0, [], rfl⟩, _, sent, rest, hwrite, rfl,
    .now hread htime (by rw [hstate]; decide) hbytes⟩

theorem protobuf_orderCall : Protobuf orderDispatcher (orderCall (ascii "1")) := by
  have hservice : ∀ service inv,
      Reaches orderDispatcher (orderCall (ascii "1")).request service inv →
        service = orderService := by
    rintro service inv ⟨⟨methodName, _, hservice, _⟩, _, _⟩
    have hite : (if inv.serviceName = ascii "Order" then some orderService else none) =
        some service := hservice
    exact (Option.some.inj (Option.ite_none_right_eq_some.1 hite).2).symm
  refine ⟨fun service inv data hreaches hanswer => ?_, rfl,
    fun service inv data hreaches hanswer => ?_⟩
  · cases hservice service inv hreaches
    cases hanswer
    rfl
  · cases hservice service inv hreaches
    cases hanswer

theorem answeredCall_orderReply : AnsweredCall orderDispatcher orderChannel (orderCall (ascii "1"))
    (replyScript orderDispatcher) :=
  answeredCall_order protobuf_orderCall (by decide +kernel) (by decide +kernel) (by decide +kernel)

theorem answeredCall_noServices : AnsweredCall noServices orderChannel (orderCall (ascii "1"))
    (replyScript noServices) := by
  have hnone : ∀ service inv, ¬ Reaches noServices (orderCall (ascii "1")).request service inv := by
    rintro service inv ⟨⟨methodName, _, hservice, _⟩, _, _⟩
    cases hservice
  exact answeredCall_order ⟨fun service inv _ h => absurd h (hnone service inv), rfl,
    fun service inv _ h => absurd h (hnone service inv)⟩
    (by decide +kernel) (by decide +kernel) (by decide +kernel)

/-- The order succeeds, and above the level at which errors are logged a failure is reported. -/
theorem callMethod_outcome_iff_order :
    (∃ channel' result n,
      (∀ fuel ≥ n, orderChannel.callMethod .debug noServices fuel (orderCall (ascii "1"))
        (replyScript orderDispatcher) = some (channel', result)) ∧
        Outcome orderDispatcher (orderCall (ascii "1")) (orderReply orderDispatcher) result) ∧
    ∃ channel' result n,
      (∀ fuel ≥ n, orderChannel.callMethod .info noServices fuel (orderCall (ascii "1"))
        (replyScript noServices) = some (channel', result)) ∧
        Outcome noServices (orderCall (ascii "1")) (orderReply noServices) result := by
  constructor
  · refine (callMethod_outcome_iff .debug noServices answeredCall_orderReply).2 fun _ => ?_
    exact (dispatch_spec orderDispatcher _).1.errCode_eq_zero_iff.1 (by decide +kernel)
  · refine (callMethod_outcome_iff .info noServices answeredCall_noServices).2 fun hlevel => ?_
    exact absurd hlevel (by decide)

/-- At the level that is set by default, the caller is not told that there is no such service:
the call that gets this answer is not defined. -/
theorem not_outcome_noServices :
    AnsweredCall noServices orderChannel (orderCall (ascii "1")) (replyScript noServices) ∧
      (orderReply noServices).errCode = errorServiceNotFound ∧
      ¬ ∃ channel' result n,
        (∀ fuel ≥ n, orderChannel.callMethod .debug noServices fuel (orderCall (ascii "1"))
          (replyScript noServices) = some (channel', result)) ∧
          Outcome noServices (orderCall (ascii "1")) (orderReply noServices) result := by
  refine ⟨answeredCall_noServices, by decide +kernel, ?_⟩
  rintro ⟨channel', result, n, hcall, -⟩
  have hlog := answeredCall_noServices.logsNoError noServices hcall
  have hzero := (dispatch_spec noServices _).1.errCode_eq_zero_iff.2 (hlog rfl)
  exact absurd hzero (by decide +kernel)

end Orders

end RpcChannel

end Rocket
