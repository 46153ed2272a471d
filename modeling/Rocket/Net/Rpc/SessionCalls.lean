import Mathlib.Data.List.ReduceOption
import Rocket.Net.Rpc.Outcome
import Rocket.Net.Rpc.Session

/-!
# Calls in a session

`CallMethod` is a sequence of steps of the client of a session: the request is encoded, and
what follows connects, writes, reads, executes and asks for the reply, pass by pass
(`performs_callMethod`). So whenever a call that returns, and that the client has not failed
itself, is part of a clean session, its result says what the response of the dispatcher to its own
request says, as long as no two requests of the session have the same message id
(`outcome_of_callMethod`).
-/

namespace Rocket

open Foundation TinyPBProtocol

/-- The steps of a client lead from `c` to `c'` without encoding a request, and hand out the
replies `handed`. -/
def Performs {Method Message : Type} (d : RpcDispatcher Method Message) (c c' : TcpConnection)
    (handed : List (Bytes × TinyPBProtocol)) : Prop :=
  ∃ ops outs, (∀ op ∈ ops, op.encoded = []) ∧
    (TcpConnection.clientMachine d).run c ops = some (c', outs) ∧ outs.reduceOption = handed

namespace Performs

open TcpConnection

variable {Method Message Method' Message' : Type} {d : RpcDispatcher Method Message}
  {c c' c'' : TcpConnection} {handed handed' : List (Bytes × TinyPBProtocol)}

theorem refl (d : RpcDispatcher Method Message) (c : TcpConnection) : Performs d c c [] :=
  ⟨[], [], List.forall_mem_nil _, rfl, rfl⟩

theorem trans (h : Performs d c c' handed) (h' : Performs d c' c'' handed') :
    Performs d c c'' (handed ++ handed') := by
  obtain ⟨ops, outs, hencoded, hrun, rfl⟩ := h
  obtain ⟨ops', outs', hencoded', hrun', rfl⟩ := h'
  refine ⟨ops ++ ops', outs ++ outs', List.forall_mem_append.2 ⟨hencoded, hencoded'⟩,
    (Machine.run_append_eq_some_iff ..).2 ⟨c', outs, outs', hrun, hrun', rfl⟩, ?_⟩
  rw [List.reduceOption_append]

theorem of_step (op : ClientOp) (hop : op.encoded = []) (h : c.clientStep d op = some (c', none)) :
    Performs d c c' [] :=
  ⟨[op], [none], List.forall_mem_singleton.2 hop, Machine.run_cons h rfl, rfl⟩

theorem connect (c : TcpConnection) (r : Hooked ConnectResult) :
    Performs d c (if r.result = .success then (c.fire r.overTime).setState .connected
      else c.fire r.overTime) [] :=
  of_step (.connect r) rfl rfl

theorem excute (hc : c.connectionType = .byClient) {d' : RpcDispatcher Method' Message'}
    {fuel : ℕ} {calls : List (Invocation Method' Message')}
    (h : c.excute d' fuel = some (c', calls)) : Performs d c c' [] := by
  refine of_step (.excute fuel) rfl ?_
  rw [excute_client_eq hc] at h
  obtain ⟨p, hdecode, heq⟩ := Option.map_eq_some_iff.1 h
  cases heq
  rw [clientStep, excute_client_eq hc, hdecode]
  rfl

theorem getResPackageData {msgId : Bytes} {m : TinyPBProtocol}
    (h : c.getResPackageData msgId = some (m, c')) : Performs d c c' [(msgId, m)] := by
  have hstep : (clientMachine d).step c (.getResPackageData msgId) =
      some (c', some (msgId, m)) := by
    simp only [clientMachine, clientStep, h, Option.map_some]
  exact ⟨[.getResPackageData msgId], [some (msgId, m)], List.forall_mem_singleton.2 rfl,
    Machine.run_cons hstep rfl, rfl⟩

theorem onReadLoop {results rest : List (Hooked ReadResult)} {isClose : Bool}
    (h : TcpConnection.onReadLoop results c = some (c', isClose, rest)) :
    Performs d c (if isClose then c'.clear else c') [] := by
  induction results generalizing c with
  | nil => cases h
  | cons r results ih =>
      rw [ConnectionLoop.onReadLoop_cons] at h
      cases hpass : c.readPass r with
      | again c₁ =>
          rw [hpass] at h
          have hstep : Performs d c c₁ [] := by
            refine of_step (.read r) rfl ?_
            rw [clientStep, hpass]
          exact hstep.trans (ih h)
      | leave p =>
          rw [hpass] at h
          cases h
          refine of_step (.read r) rfl ?_
          rw [clientStep, hpass]
      | undefined => simp [hpass] at h

theorem onRead {results rest : List (Hooked ReadResult)}
    (h : c.onRead results = some (c', rest)) : Performs d c c' [] := by
  rw [TcpConnection.onRead] at h
  split_ifs at h with hstate
  · cases h
    exact refl d _
  · obtain ⟨⟨c₁, isClose, rest'⟩, hloop, heq⟩ := Option.map_eq_some_iff.1 h
    cases heq
    exact onReadLoop hloop

theorem onWriteLoop {results rest : List (Hooked WriteResult)} {accepted : Bytes}
    (h : TcpConnection.onWriteLoop results c = some (c', accepted, rest)) :
    Performs d c c' [] := by
  induction results generalizing c accepted with
  | nil =>
      rw [TcpConnection.onWriteLoop] at h
      split_ifs at h
      cases h
      exact refl d _
  | cons r results ih =>
      by_cases hdata : c.outBuffer.readAble = 0
      · rw [TcpConnection.onWriteLoop, if_pos hdata] at h
        cases h
        exact refl d _
      · have hmap := ConnectionLoop.onWriteLoop_cons hdata r results
        rw [h] at hmap
        cases hpass : c.writePass r with
        | again c₁ =>
            rw [hpass] at hmap
            obtain ⟨⟨c₂, accepted', rest'⟩, hloop, heq⟩ := Option.map_eq_some_iff.1 hmap.symm
            cases heq
            have hstep : Performs d c c₁ [] := by
              refine of_step (.write r) rfl ?_
              rw [clientStep, hpass]
            exact hstep.trans (ih hloop)
        | leave c₁ =>
            rw [hpass] at hmap
            cases hmap
            refine of_step (.write r) rfl ?_
            rw [clientStep, hpass]
        | undefined => simp [hpass] at hmap

theorem onWrite {results rest : List (Hooked WriteResult)} {accepted : Bytes}
    (h : c.onWrite results = some (c', accepted, rest)) : Performs d c c' [] := by
  rw [TcpConnection.onWrite] at h
  split_ifs at h
  · cases h
    exact refl d _
  · cases h
    exact refl d _
  · exact onWriteLoop h

end Performs

namespace ClientCall

open TcpConnection

variable {Method Message Method' Message' : Type} {d : RpcDispatcher Method Message}
  {d' : RpcDispatcher Method' Message'} {fuel : ℕ} {msgId : Bytes} {socket : ℤ}
  {call call' : ClientCall}

theorem performs_connectLoop {results : List (Hooked ConnectResult)} {exit : ConnectExit}
    (h : connectLoop results call = some (call', exit)) :
    Performs d call.client.connection call'.client.connection [] := by
  induction results generalizing call with
  | nil =>
      rw [connectLoop] at h
      split_ifs at h
      cases h
      exact Performs.refl d _
  | cons r results ih =>
      rw [connectLoop] at h
      split_ifs at h
      · cases h
        exact Performs.refl d _
      · have hconnect := Performs.connect (d := d) call.client.connection r
        cases hr : r.result with
        | success =>
            rw [hr] at h hconnect
            cases h
            exact hconnect
        | refused =>
            rw [hr] at h hconnect
            cases h
            exact hconnect
        | failed =>
            rw [hr] at h hconnect
            simp only at h
            split_ifs at h
            · cases h
              exact hconnect
            · exact hconnect.trans (ih h)

theorem performs_errDeal (call : ClientCall) (socket : ℤ) :
    Performs d call.client.connection (call.errDeal socket).1.connection [] := by
  unfold errDeal
  split_ifs
  · exact Performs.of_step (.setOverTimeFlag false) rfl rfl
  · exact Performs.refl d _

theorem performs_of_again {s s' : ClientCall × List (Hooked ReadResult)}
    (hs : s.1.client.connection.IsClient)
    (h : Loop.Again (replyBody d' fuel msgId socket) s s') :
    Performs d s.1.client.connection s'.1.client.connection [] := by
  obtain ⟨c, rest, c', calls, _, hread, _, _, hexcute, rfl⟩ := replyBody_again h
  have hclient := (hs.keeps_onRead hread).isClient
  exact (Performs.onRead hread).trans (Performs.excute hclient.connectionType_eq hexcute)

theorem performs_of_leave {s : ClientCall × List (Hooked ReadResult)} {r : TcpClient × Received}
    (h : replyBody d' fuel msgId socket s = .leave r) :
    ∃ handed, Performs d s.1.client.connection r.1.connection handed ∧
      ∀ m, r.2.res = some m → (msgId, m) ∈ handed := by
  unfold replyBody at h
  split at h
  · next res c hres =>
      cases h
      refine ⟨_, Performs.getResPackageData hres, fun m hm => ?_⟩
      cases hm
      exact List.mem_singleton_self _
  · split at h
    · cases h
    · next c rest hread =>
        have hpassed : Performs d s.1.client.connection c [] := Performs.onRead hread
        have herr (call : ClientCall) (hcall : call.client.connection = c) :
            Performs d s.1.client.connection (call.errDeal socket).1.connection [] :=
          hpassed.trans (hcall ▸ performs_errDeal call socket)
        simp only at h
        split_ifs at h
        · cases h
          refine ⟨[], herr _ rfl, fun m hm => ?_⟩
          unfold errDeal at hm
          split_ifs at hm
        · cases h
          refine ⟨[], herr _ rfl, fun m hm => ?_⟩
          unfold errDeal at hm
          split_ifs at hm
        · split at h <;> cases h

theorem performs_of_run {s : ClientCall × List (Hooked ReadResult)} {r : TcpClient × Received}
    {n : ℕ} (hs : s.1.client.connection.IsClient)
    (h : Loop.run (replyBody d' fuel msgId socket) n s = some r) :
    ∃ handed, Performs d s.1.client.connection r.1.connection handed ∧
      ∀ m, r.2.res = some m → (msgId, m) ∈ handed := by
  obtain ⟨t, hreaches, hleave⟩ := Loop.exists_run_eq_some_iff.1 ⟨n, h⟩
  obtain ⟨-, hperforms⟩ := hreaches.invariant
    (I := fun t => t.1.client.connection.IsClient ∧
      Performs d s.1.client.connection t.1.client.connection [])
    (fun t t' ht hagain => ⟨(keeps_of_again ht.1 hagain).1.connection.isClient,
      ht.2.trans (performs_of_again ht.1 hagain)⟩)
    ⟨hs, Performs.refl d _⟩
  obtain ⟨handed, hlast, hres⟩ := performs_of_leave hleave
  exact ⟨handed, hperforms.trans hlast, hres⟩

theorem performs_sendAndRecv {script : Script} {r : TcpClient × Received} (hcall : call.Runs)
    (h : call.sendAndRecv d' fuel msgId script = some r) :
    ∃ handed, Performs d call.client.connection r.1.connection handed ∧
      ∀ m, r.2.res = some m → (msgId, m) ∈ handed := by
  rw [ClientCall.sendAndRecv] at h
  split_ifs at h with hstate
  · cases h
    refine ⟨[], Performs.refl d _, fun m hm => ?_⟩
    cases hm
  · have hconnected : call.client.connection.setState .connected = call.client.connection := by
      rw [setState, ← not_not.1 hstate]
    obtain ⟨⟨c, sent, rest⟩, hwrite, h⟩ := Option.bind_eq_some_iff.1 h
    obtain ⟨⟨client, received⟩, hexit, heq⟩ := Option.map_eq_some_iff.1 h
    cases heq
    rw [hconnected] at hwrite
    have hclient := (hcall.isClient.keeps_onWrite hwrite).isClient
    have hwritten : Performs d call.client.connection c [] := Performs.onWrite hwrite
    split_ifs at hexit
    · cases hexit
      refine ⟨[], hwritten.trans (performs_errDeal { call.resume c _ with isTimeout := true } _),
        fun m hm => ?_⟩
      cases hm
    · obtain ⟨handed, hperforms, hres⟩ :=
        performs_of_run (s := (call.resume c _, script.reads)) hclient hexit
      exact ⟨handed, hwritten.trans hperforms, hres⟩

end ClientCall

section Calls

variable {Method Message Method' Message' Response : Type} {d : RpcDispatcher Method Message}
  {d' : RpcDispatcher Method' Message'} {fuel : ℕ} {script : Script}

/-- What `sendAndRecvTinyPb` does to the connection, and the reply that it returns. -/
theorem TcpClient.performs_sendAndRecvTinyPb {client : TcpClient} (hidle : client.Idle)
    {msgId : Bytes} {r : TcpClient × Received}
    (h : client.sendAndRecvTinyPb d' fuel msgId script = some r) :
    ∃ handed, Performs d client.connection r.1.connection handed ∧
      ∀ m, r.2.res = some m → (msgId, m) ∈ handed := by
  obtain ⟨⟨call, exit⟩, hloop, h⟩ := Option.bind_eq_some_iff.1 h
  have hstart : client.startCall.Runs := ⟨hidle.isClient, fun _ => hidle.notOverTime⟩
  have hruns := (hstart.connectLoop hloop).runs
  have hconnects : Performs d client.connection call.client.connection [] :=
    ClientCall.performs_connectLoop hloop
  cases exit with
  | connected =>
      obtain ⟨handed, hperforms, hres⟩ := ClientCall.performs_sendAndRecv hruns h
      exact ⟨handed, hconnects.trans hperforms, hres⟩
  | timeout =>
      cases h
      refine ⟨[], hconnects.trans (ClientCall.performs_errDeal call _), fun m hm => ?_⟩
      unfold ClientCall.errDeal at hm
      split_ifs at hm
  | refused =>
      cases h
      exact ⟨[], hconnects, nofun⟩

namespace RpcChannel

variable {level : LogLevel} {channel channel' : RpcChannel} {call : MethodCall Response}
  {result : CallResult Response} {received : Received}

/-- A call that has reached the client: what the client has returned decides its result. -/
theorem exists_of_callMethod
    (h : channel.callMethod level d' fuel call script = some (channel', result))
    (hreceived : result.received = some received) :
    ∃ messages outBuffer,
      TinyPBCoder.encode [call.request] channel.client.connection.outBuffer =
        some (messages, outBuffer) ∧
      (channel.loaded outBuffer).sendAndRecvTinyPb d' fuel call.request.withMsgId.msgId script =
        some (channel'.client, received) ∧
      finish level channel'.client call.controllerWithId call received = some result := by
  by_cases hinit : channel.isInit = true
  · by_cases hserialize : call.serializeToString.1 = true
    · cases hencode : TinyPBCoder.encode [call.request] channel.client.connection.outBuffer with
      | none =>
          rw [callMethod, if_neg (by simp [hinit]), if_neg (by simp [hserialize]), hencode] at h
          cases h
      | some encoded =>
          obtain ⟨messages, outBuffer⟩ := encoded
          rw [callMethod_eq hinit hserialize hencode, Option.bind_eq_some_iff] at h
          obtain ⟨⟨client, received'⟩, hsend, hfinish⟩ := h
          obtain ⟨result', hfinish, heq⟩ := Option.map_eq_some_iff.1 hfinish
          cases heq
          cases (received_of_finish hfinish).symm.trans hreceived
          exact ⟨messages, outBuffer, rfl, hsend, hfinish⟩
    · rw [callMethod, if_neg (by simp [hinit]), if_pos (by simp [hserialize])] at h
      cases h
      cases hreceived
  · rw [callMethod, if_pos (by simp [hinit])] at h
    cases h
    cases hreceived

theorem performs_callMethod (hidle : channel.client.Idle)
    (h : channel.callMethod level d' fuel call script = some (channel', result))
    (hreceived : result.received = some received) :
    ∃ c handed, channel.client.connection.clientStep d (.encode call.request) = some (c, none) ∧
      Performs d c channel'.client.connection handed ∧
      ∀ m, received.res = some m → (call.request.withMsgId.msgId, m) ∈ handed := by
  obtain ⟨messages, outBuffer, hencode, hsend, -⟩ := exists_of_callMethod h hreceived
  obtain ⟨handed, hperforms, hres⟩ :=
    TcpClient.performs_sendAndRecvTinyPb (idle_loaded hidle hencode).1 hsend
  exact ⟨_, handed, by rw [TcpConnection.clientStep, hencode]; rfl, hperforms, hres⟩

end RpcChannel

end Calls

namespace Session

open TcpConnection ConnectionLoop RpcChannel

variable {Method Message Method' Message' : Type} {d : RpcDispatcher Method Message}
  {s s' : Session}

def clientOps : List SessionOp → List ClientOp
  | [] => []
  | .client op :: ops => op :: clientOps ops
  | .server _ :: ops => clientOps ops

theorem exists_run_client {ops : List SessionOp} {outs : List (Option (Bytes × TinyPBProtocol))}
    (hrun : (machine d).run s ops = some (s', outs)) :
    ∃ outs', (clientMachine d).run s.client (clientOps ops) = some (s'.client, outs') ∧
      outs'.reduceOption = outs.reduceOption ∧
      s'.requests = s.requests ++ (clientOps ops).flatMap ClientOp.encoded := by
  induction ops generalizing s outs with
  | nil =>
      cases hrun
      exact ⟨[], rfl, rfl, (List.append_nil _).symm⟩
  | cons op ops ih =>
      obtain ⟨s₁, out, outs₁, hstep, hrest, rfl⟩ := (Machine.run_cons_eq_some_iff ..).1 hrun
      obtain ⟨outs', hrun', hreduce, hrequests⟩ := ih hrest
      cases op with
      | client op =>
          obtain ⟨⟨c, out'⟩, hclient, hflows⟩ := Option.bind_eq_some_iff.1 hstep
          obtain ⟨_, _, heq⟩ := Option.bind_eq_some_iff.1 hflows
          cases heq
          refine ⟨out :: outs', Machine.run_cons hclient hrun', ?_, ?_⟩
          · cases out with
            | none => exact hreduce
            | some p => exact congrArg (p :: ·) hreduce
          · rw [hrequests, clientOps, List.flatMap_cons, List.append_assoc]
      | server op =>
          obtain ⟨_, _, hflows⟩ := Option.bind_eq_some_iff.1 hstep
          obtain ⟨_, _, heq⟩ := Option.bind_eq_some_iff.1 hflows
          cases heq
          exact ⟨outs', hrun', hreduce, hrequests⟩

theorem Answers.eq_of_nodup {requests : List TinyPBProtocol} {p : Bytes × TinyPBProtocol}
    (h : Answers d requests p) (hids : (requests.map fun m => m.withMsgId.msgId).Nodup)
    {request : TinyPBProtocol} (hrequest : request ∈ requests)
    (hid : request.withMsgId.msgId = p.1) : p.2 = (reply d request.withMsgId).delivered := by
  obtain ⟨request', hrequest', hid', heq, -⟩ := h
  cases List.inj_on_of_nodup_map hids hrequest hrequest' (hid.trans hid'.symm)
  exact heq

/-- A call is made of steps of the client, and a session that takes them encodes its request and
hands out the reply that it returns. -/
theorem exists_steps_of_callMethod (d : RpcDispatcher Method Message)
    (d' : RpcDispatcher Method' Message') {level : LogLevel} {channel channel' : RpcChannel}
    (hidle : channel.client.Idle) {Response : Type} {call : MethodCall Response} {fuel : ℕ}
    {script : Script} {result : CallResult Response} {received : Received}
    (hcall : channel.callMethod level d' fuel call script = some (channel', result))
    (hreceived : result.received = some received) :
    ∃ steps outs, (clientMachine d).run channel.client.connection (.encode call.request :: steps) =
        some (channel'.client.connection, outs) ∧
      ∀ ops s s' outs', s.client = channel.client.connection →
        (machine d).run s ops = some (s', outs') →
        clientOps ops = .encode call.request :: steps →
        s'.client = channel'.client.connection ∧ call.request ∈ s'.requests ∧
          ∀ m, received.res = some m → some (call.request.withMsgId.msgId, m) ∈ outs' := by
  obtain ⟨c, handed, hencode, ⟨steps, outs, -, hrun, rfl⟩, hres⟩ :=
    performs_callMethod (d := d) hidle hcall hreceived
  have hfirst : (clientMachine d).step channel.client.connection (.encode call.request) =
      some (c, none) := hencode
  have hsteps := Machine.run_cons hfirst hrun
  refine ⟨steps, _, hsteps, ?_⟩
  intro ops s s' outs₁ hclient hsession hops
  obtain ⟨outs', hclientRun, hreduce, hrequests⟩ := exists_run_client hsession
  rw [hclient, hops, hsteps] at hclientRun
  obtain ⟨heq, rfl⟩ := Prod.mk.inj (Option.some.inj hclientRun)
  refine ⟨heq.symm, ?_, fun m hm => List.reduceOption_mem_iff.1 (hreduce ▸ hres m hm)⟩
  rw [hrequests, hops]
  exact List.mem_append_right _ List.mem_cons_self

/-- A call with a controller that carries no error returns a reply which a clean session has
handed out for its message id: its result says what the response of the dispatcher to its request
says, if no two requests of the session have the same message id. Where errors are logged, this
response carries none, as the call would not have returned. -/
theorem outcome_of_callMethod (d : RpcDispatcher Method Message)
    (d' : RpcDispatcher Method' Message') {level : LogLevel} {channel channel' : RpcChannel}
    {call : MethodCall Message} {fuel : ℕ} {script : Script} {result : CallResult Message}
    {received : Received}
    (hcall : channel.callMethod level d' fuel call script = some (channel', result))
    (hreceived : result.received = some received) (hrt : received.rt = 0)
    (hproto : Protobuf d call) (hcontroller : call.controller.NoError)
    (hid : call.request.msgId ≠ []) {fd fd' : ℤ} {ops : List SessionOp} {s : Session}
    {outs : List (Option (Bytes × TinyPBProtocol))}
    (hclean : (machine d).Meets Clean (new fd fd') ops)
    (hrun : (machine d).run (new fd fd') ops = some (s, outs))
    (hrequest : call.request ∈ s.requests)
    (hhanded : ∀ m, received.res = some m → some (call.request.msgId, m) ∈ outs)
    (hids : (s.requests.map fun m => m.withMsgId.msgId).Nodup) :
    LogsNoError level d call.request ∧ Outcome d call (d.dispatch call.request {}).1 result := by
  have hwith : call.request.withMsgId = call.request := by rw [withMsgId, if_neg hid]
  obtain ⟨messages, outBuffer, -, -, hfinish⟩ := exists_of_callMethod hcall hreceived
  obtain ⟨m, hm⟩ : ∃ m, received.res = some m := by
    rw [finish, if_neg (not_not_intro hrt)] at hfinish
    obtain ⟨m, hm, -⟩ := Option.bind_eq_some_iff.1 hfinish
    exact ⟨m, hm⟩
  have hanswers := answers_of_run d fd fd' hclean hrun _ (hhanded m hm) _ rfl
  have hreply := hanswers.eq_of_nodup hids hrequest (congrArg TinyPBProtocol.msgId hwith)
  rw [hwith] at hreply
  obtain ⟨message, hparse⟩ := hproto.parse_response
  have hreplies := (RpcDispatcher.dispatch_spec d call.request).1
  have hres := hm.trans (congrArg some hreply)
  have hlog : LogsNoError level d call.request := by
    by_contra hlog
    cases hfinish.symm.trans
      (finish_eq_none hlog hreplies hparse hid channel'.client hrt hres)
  obtain ⟨result', hfinish', houtcome⟩ := exists_finish hlog hproto hcontroller hreplies hparse hid
    channel'.client hrt hres
  cases hfinish.symm.trans hfinish'
  exact ⟨hlog, houtcome⟩

/-- The call of the order, in the session in which both of its packets arrive in two parts. -/
theorem outcome_of_callMethod_order :
    ∃ channel' result,
      orderChannel.callMethod .debug noServices 3 (orderCall (ascii "1"))
        (replyScript orderDispatcher) = some (channel', result) ∧
      LogsNoError .debug orderDispatcher (orderCall (ascii "1")).request ∧
      Outcome orderDispatcher (orderCall (ascii "1"))
        (orderDispatcher.dispatch (orderCall (ascii "1")).request {}).1 result := by
  have hcall : (orderChannel.callMethod .debug noServices 3 (orderCall (ascii "1"))
      (replyScript orderDispatcher)).map (fun p => p.2.received) =
      some (some ⟨0, some (reply orderDispatcher order).delivered, order.packet⟩) := by
    decide +kernel
  obtain ⟨⟨channel', result⟩, hcall, hreceived⟩ := Option.map_eq_some_iff.1 hcall
  have hclean : (machine orderDispatcher).Meets Clean (new 7 8) orderSession := by
    decide +kernel
  have hsession : ((machine orderDispatcher).run (new 7 8) orderSession).map
      (fun p => (p.2.getLast?, p.1.requests)) =
      some (some (some (ascii "1", (reply orderDispatcher order).delivered)), [order]) := by
    decide +kernel
  obtain ⟨⟨s, outs⟩, hrun, heq⟩ := Option.map_eq_some_iff.1 hsession
  obtain ⟨hlast, hrequests⟩ := Prod.mk.inj heq
  refine ⟨channel', result, hcall, outcome_of_callMethod orderDispatcher noServices hcall hreceived
    rfl protobuf_orderCall ⟨rfl, rfl, rfl⟩ (by decide) hclean hrun ?_ ?_ ?_⟩
  · rw [hrequests]
    exact List.mem_singleton_self _
  · intro m hm
    cases hm
    exact List.mem_of_getLast? hlast
  · rw [hrequests]
    decide

end Session

end Rocket
