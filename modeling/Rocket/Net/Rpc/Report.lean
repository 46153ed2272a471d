import Rocket.Net.Rpc.Outcome

/-!
# What a service reports

The dispatcher passes a controller to the method that it calls, and the method may report a
failure with `SetFailed` or `SetError`. What is for the caller to see is the response, and
the dispatcher writes it without another look at the controller (`fst_dispatch`). So a
report is lost, unless the response fails in a way of its own.
-/

namespace Rocket

open Foundation RpcDispatcher

/-- A call with which a method reports a failure. -/
inductive Report where
  | setFailed (reason : Bytes)
  | setError (errorCode : Int32) (errorInfo : Bytes)
  deriving DecidableEq, Repr

namespace Report

def text : Report → Bytes
  | setFailed reason => reason
  | setError _ errorInfo => errorInfo

def isSetError : Report → Bool
  | setFailed _ => false
  | setError _ _ => true

def lastText (reports : List Report) : Option Bytes := reports.getLast?.map text

theorem exists_lastText {reports : List Report} (h : reports ≠ []) :
    ∃ text, lastText reports = some text :=
  ⟨_, congrArg (Option.map text) (List.getLast?_eq_some_getLast h)⟩

end Report

/-- What is done to a controller. -/
inductive ControllerOp where
  | report (r : Report)
  | reset
  | setMsgId (msgId : Bytes)
  deriving DecidableEq, Repr

namespace RpcController

def report (c : RpcController) : Report → RpcController
  | .setFailed reason => c.setFailed reason
  | .setError errorCode errorInfo => c.setError errorCode errorInfo

def apply (c : RpcController) : ControllerOp → RpcController
  | .report r => c.report r
  | .reset => c.reset
  | .setMsgId msgId => c.setMsgId msgId

/-- The reports since the last `Reset`. -/
def sinceReset (ops : List ControllerOp) : List Report :=
  ops.foldl (fun reports op =>
    match op with
    | .report r => reports ++ [r]
    | .reset => []
    | .setMsgId _ => reports) []

/-- `Failed` says whether an error has been recorded since the last `Reset`. -/
def SaysFailed (ops : List ControllerOp) : Prop :=
  (ops.foldl apply {}).isFailed = true ↔ sinceReset ops ≠ []

/-- `Failed` only knows of the errors that `SetError` has recorded. -/
theorem isFailed_foldl (ops : List ControllerOp) :
    (ops.foldl apply {}).isFailed = (sinceReset ops).any Report.isSetError := by
  induction ops using List.reverseRecOn with
  | nil => rfl
  | append_singleton ops op ih =>
      rw [List.foldl_append, sinceReset, List.foldl_append, ← sinceReset]
      rcases op with (reason | ⟨errorCode, errorInfo⟩) | _ | msgId
      · simpa [apply, report, setFailed, Report.isSetError] using ih
      · simp [apply, report, setError, Report.isSetError]
      · rfl
      · exact ih

theorem saysFailed_iff (ops : List ControllerOp) :
    SaysFailed ops ↔ sinceReset ops = [] ∨ ∃ r ∈ sinceReset ops, r.isSetError = true := by
  rw [SaysFailed, isFailed_foldl, List.any_eq_true]
  constructor
  · intro h
    by_cases hnil : sinceReset ops = []
    · exact Or.inl hnil
    · exact Or.inr (h.2 hnil)
  · rintro (hnil | hmem)
    · simp [hnil]
    · exact iff_of_true hmem (List.ne_nil_of_mem hmem.choose_spec.1)

end RpcController

/-- A service whose methods report failures. -/
structure ReportingService (Method Message : Type) extends Service Method Message where
  reports : Method → RpcController → Message → List Report

/-- `RpcDispatcher` with such services. -/
structure ReportingDispatcher (Method Message : Type) where
  serviceMap : Bytes → Option (ReportingService Method Message)

namespace ReportingDispatcher

variable {Method Message : Type}

def plain (d : ReportingDispatcher Method Message) : RpcDispatcher Method Message where
  serviceMap name := (d.serviceMap name).map ReportingService.toService

/-- `RpcDispatcher::dispatch`: the response, and the controller as the method has left it. -/
def dispatch (d : ReportingDispatcher Method Message) (request response : TinyPBProtocol) :
    TinyPBProtocol × Option RpcController :=
  let rsp := { response with msgId := request.msgId, methodName := request.methodName }
  match parseServiceFullName request.methodName with
  | none => (setTinyPBError rsp errorParseServiceName (ascii "parse service name error"), none)
  | some (serviceName, methodName) =>
      match d.serviceMap serviceName with
      | none => (setTinyPBError rsp errorServiceNotFound (ascii "service not found"), none)
      | some service =>
          match service.findMethodByName methodName with
          | none => (setTinyPBError rsp errorMethodNotFound (ascii "method not found"), none)
          | some method =>
              match service.parseFromString method request.pbData with
              | none => (setTinyPBError rsp errorFailedDeserialize (ascii "deserilize error"), none)
              | some reqMsg =>
                  let controller := RpcController.setMsgId {} request.msgId
                  let rspMsg := service.callMethod method controller reqMsg
                  let left := (service.reports method controller reqMsg).foldl RpcController.report
                    controller
                  let (success, data) := service.serializeToString method rspMsg
                  let rsp := { rsp with errCode := 0, pbData := data }
                  (if success then rsp
                    else setTinyPBError rsp errorFailedSerialize (ascii "serilize error"),
                    some left)

/-- The response is the same whatever the services report. -/
theorem fst_dispatch (d : ReportingDispatcher Method Message) (request response : TinyPBProtocol) :
    (d.dispatch request response).1 = (d.plain.dispatch request response).1 := by
  unfold dispatch RpcDispatcher.dispatch
  cases hname : parseServiceFullName request.methodName with
  | none => rfl
  | some names =>
      obtain ⟨serviceName, methodName⟩ := names
      cases hservice : d.serviceMap serviceName with
      | none => simp [plain, hservice]
      | some service =>
          cases hmethod : service.findMethodByName methodName with
          | none => simp [plain, hservice, hmethod]
          | some method =>
              cases hparse : service.parseFromString method request.pbData with
              | none => simp [plain, hservice, hmethod, hparse]
              | some reqMsg => simp [plain, hservice, hmethod, hparse]

/-- The response to a request that reaches a method: the method's result, or the error of
serializing it. -/
theorem dispatch_of_reaches {d : ReportingDispatcher Method Message} {request : TinyPBProtocol}
    {service : Service Method Message} {inv : Invocation Method Message}
    (h : Reaches d.plain request service inv) :
    ((answer service inv).1 = true ∧ (d.dispatch request {}).1.errCode = 0) ∨
      (answer service inv).1 = false ∧
        (d.dispatch request {}).1.errCode = errorFailedSerialize ∧
        (d.dispatch request {}).1.errInfo = ascii "serilize error" := by
  rw [fst_dispatch]
  rcases dispatch_cases d.plain request with
    ⟨code, info, hfirst, hcode, -⟩ | ⟨service', inv', success, data, hreaches, hanswer, heq⟩
  · exact absurd h (hfirst.not_reaches hcode service inv)
  · obtain ⟨rfl, rfl⟩ := h.unique hreaches
    rw [hanswer, heq]
    cases success with
    | true => exact Or.inl ⟨rfl, rfl⟩
    | false => exact Or.inr ⟨rfl, rfl, rfl⟩

end ReportingDispatcher

/-- What a method has reported is in the response and in the controller of the caller. -/
structure Reported (reports : List Report) (response : TinyPBProtocol)
    (controller : RpcController) : Prop where
  inResponse : ∀ text, Report.lastText reports = some text →
    response.errCode ≠ 0 ∧ response.errInfo = text
  atCaller : ∀ text, Report.lastText reports = some text →
    controller.isFailed = true ∧ controller.errorInfo = text
  empty : reports = [] → response.errCode = 0

/-- There is no report to lose, or its text is by chance the one of the error that the
dispatcher finds itself, and the logger does not format the line about this error. -/
def NothingLost (level : LogLevel) (serializes : Bool) (reports : List Report) : Prop :=
  if serializes then reports = []
  else level.logsErrors = false ∧ Report.lastText reports = some (ascii "serilize error")

namespace RpcChannel

variable {Method Message : Type} {server : ReportingDispatcher Method Message}
  {channel : RpcChannel} {call : MethodCall Message} {script : Script} {level : LogLevel}
  {service : Service Method Message} {inv : Invocation Method Message} {reports : List Report}

theorem logsNoError_iff (hreaches : Reaches server.plain call.request service inv) :
    LogsNoError level server.plain call.request ↔
      (answer service inv).1 = true ∨ level.logsErrors = false := by
  constructor
  · intro hlog
    by_cases hlevel : level.logsErrors = true
    · obtain ⟨data, service', inv', hreaches', hanswer⟩ := hlog hlevel
      obtain ⟨rfl, rfl⟩ := hreaches.unique hreaches'
      exact Or.inl (congrArg Prod.fst hanswer)
    · exact Or.inr (Bool.eq_false_iff.2 hlevel)
  · rintro (hanswer | hlevel) hlogs
    · exact ⟨_, service, inv, hreaches, Prod.ext hanswer rfl⟩
    · cases hlevel.symm.trans hlogs

theorem logsNoError_of_nothingLost (hreaches : Reaches server.plain call.request service inv)
    (h : NothingLost level (answer service inv).1 reports) :
    LogsNoError level server.plain call.request := by
  refine (logsNoError_iff hreaches).2 ?_
  cases hanswer : (answer service inv).1 with
  | true => exact Or.inl rfl
  | false =>
      rw [NothingLost, hanswer, if_neg Bool.false_ne_true] at h
      exact Or.inr h.1

theorem Outcome.reported_iff {result : CallResult Message}
    (h : Outcome server.plain call (server.dispatch call.request {}).1 result)
    (hlog : LogsNoError level server.plain call.request)
    (hreaches : Reaches server.plain call.request service inv) (reports : List Report) :
    Reported reports (server.dispatch call.request {}).1 result.controller ↔
      NothingLost level (answer service inv).1 reports := by
  rcases server.dispatch_of_reaches hreaches with ⟨hanswer, hcode⟩ | ⟨hanswer, hcode, hinfo⟩
  · rw [hanswer, NothingLost, if_pos rfl]
    constructor
    · intro hreported
      by_contra hne
      obtain ⟨text, htext⟩ := Report.exists_lastText hne
      exact (hreported.inResponse text htext).1 hcode
    · rintro rfl
      exact ⟨nofun, nofun, fun _ => hcode⟩
  · have hcode_ne : errorFailedSerialize ≠ 0 := by decide
    obtain ⟨-, herror, hfailed, -⟩ := h.error _ _ hcode_ne hcode hinfo
    have hlevel := ((logsNoError_iff hreaches).1 hlog).resolve_left (by simp [hanswer])
    rw [hanswer, NothingLost, if_neg Bool.false_ne_true]
    constructor
    · intro hreported
      have hne : reports ≠ [] := fun hnil =>
        hcode_ne (hcode.symm.trans (hreported.empty hnil))
      obtain ⟨text, htext⟩ := Report.exists_lastText hne
      refine ⟨hlevel, ?_⟩
      rw [htext, ← (hreported.inResponse text htext).2, hinfo]
    · rintro ⟨-, htext⟩
      refine ⟨fun text h => ?_, fun text h => ?_, ?_⟩
      · cases htext.symm.trans h
        exact ⟨hcode ▸ hcode_ne, hinfo⟩
      · cases htext.symm.trans h
        exact ⟨hfailed, herror⟩
      · rintro rfl
        cases htext

/-- Whether a reported failure reaches the caller, and whether `Failed` says what has been
recorded. -/
theorem reported_iff_nothingLost {Method' Message' : Type} (level : LogLevel)
    (d : RpcDispatcher Method' Message') (h : AnsweredCall server.plain channel call script)
    {service : ReportingService Method Message} {inv : Invocation Method Message}
    (hreaches : Reaches server.plain call.request service.toService inv) :
    ((∃ channel' result n,
      (∀ fuel ≥ n, channel.callMethod level d fuel call script = some (channel', result)) ∧
        Reported (service.reports inv.method inv.controller inv.request)
          (server.dispatch call.request {}).1 result.controller) ↔
      NothingLost level (answer service.toService inv).1
        (service.reports inv.method inv.controller inv.request)) ∧
      ∀ ops, RpcController.SaysFailed ops ↔ RpcController.sinceReset ops = [] ∨
        ∃ r ∈ RpcController.sinceReset ops, r.isSetError = true := by
  have hexists (hlog : LogsNoError level server.plain call.request) :=
    h.exists_result d hlog
  rw [← server.fst_dispatch] at hexists
  refine ⟨⟨?_, fun hnothing => ?_⟩, RpcController.saysFailed_iff⟩
  · rintro ⟨channel', result, n, hcall, hreported⟩
    have hlog := h.logsNoError d hcall
    obtain ⟨channel₁, result₁, n₁, hcall₁, houtcome⟩ := hexists hlog
    -- Both are what the call returns when there is fuel enough.
    cases (hcall (max n n₁) (le_max_left n n₁)).symm.trans (hcall₁ _ (le_max_right n n₁))
    exact (houtcome.reported_iff hlog hreaches _).1 hreported
  · have hlog := logsNoError_of_nothingLost hreaches hnothing
    obtain ⟨channel', result, n, hcall, houtcome⟩ := hexists hlog
    exact ⟨channel', result, n, hcall, (houtcome.reported_iff hlog hreaches _).2 hnothing⟩

def reportingService (reports : List Report) : ReportingService Unit Bytes :=
  { TcpConnection.orderService with reports := fun _ _ _ => reports }

def reportingDispatcher (reports : List Report) : ReportingDispatcher Unit Bytes where
  serviceMap name := if name = ascii "Order" then some (reportingService reports) else none

theorem plain_reportingDispatcher (reports : List Report) :
    (reportingDispatcher reports).plain = TcpConnection.orderDispatcher := by
  refine congrArg RpcDispatcher.mk (funext fun name => ?_)
  exact apply_ite ..

/-- The order is made, and there is nothing to report. -/
theorem reported_iff_nothingLost_order :
    (∃ channel' result n,
      (∀ fuel ≥ n, orderChannel.callMethod .debug noServices fuel (orderCall (ascii "1"))
        (replyScript TcpConnection.orderDispatcher) = some (channel', result)) ∧
        Reported [] ((reportingDispatcher []).dispatch (orderCall (ascii "1")).request {}).1
          result.controller) ∧
      RpcController.SaysFailed [.report (.setError 7 (ascii "sold out"))] := by
  have hreaches : Reaches (reportingDispatcher []).plain (orderCall (ascii "1")).request
      (reportingService []).toService
      ⟨ascii "Order", (), { msgId := ascii "1" }, [0x08, 100]⟩ :=
    ⟨⟨ascii "makeOrder", by decide, rfl, rfl⟩, rfl, rfl⟩
  obtain ⟨hreported, hfailed⟩ := reported_iff_nothingLost .debug noServices
    ((plain_reportingDispatcher []).symm ▸ answeredCall_orderReply) hreaches
  exact ⟨hreported.2 rfl, (hfailed _).2 (Or.inr (by decide))⟩

def soldOut : List Report := [.setError 7 (ascii "sold out")]

/-- The response to the order is a success, and a controller on which only `SetFailed` has
been called has not failed. -/
theorem not_reported_soldOut :
    (∀ controller, ¬ Reported soldOut
      ((reportingDispatcher soldOut).dispatch (orderCall (ascii "1")).request {}).1 controller) ∧
      ¬ RpcController.SaysFailed [.report (.setFailed (ascii "sold out"))] := by
  constructor
  · intro controller h
    exact absurd (h.inResponse _ rfl).1 (by decide)
  · intro h
    exact absurd (h.2 (by decide)) (by decide)

end RpcChannel

end Rocket
