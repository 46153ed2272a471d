import Rocket.Common.ErrorCode
import Rocket.Net.Coder.TinyPBProtocol
import Rocket.Net.Rpc.RpcController

/-!
# RpcDispatcher

A request names a service and a method. The dispatcher finds both, parses the
request, calls the method, and serializes the result; the first of these stages
that fails decides the error of the response.

What protobuf and the services do is a parameter: a `Service` is whatever finds
methods, parses requests, answers them and serializes answers. `Succeeds` and
`FirstFails` say what the stages come to, and `dispatch_spec` that the response
says the same.
-/

namespace Rocket

/-- A service, with what protobuf does for its messages. -/
structure Service (Method Message : Type) where
  findMethodByName : Bytes → Option Method
  /-- `GetRequestPrototype(method).New()` and `ParseFromString` -/
  parseFromString : Method → Bytes → Option Message
  callMethod : Method → RpcController → Message → Message
  /-- `SerializeToString`: whether it succeeds, and the string it leaves -/
  serializeToString : Method → Message → Bool × Bytes

structure Invocation (Method Message : Type) where
  serviceName : Bytes
  method : Method
  controller : RpcController
  request : Message
  deriving DecidableEq

/-- `RpcDispatcher`: the map from names to services. -/
structure RpcDispatcher (Method Message : Type) where
  serviceMap : Bytes → Option (Service Method Message)

namespace RpcDispatcher

variable {Method Message : Type}

/-- The names before and behind the first `.`. -/
def parseServiceFullName (fullName : Bytes) : Option (Bytes × Bytes) :=
  if fullName = [] then none
  else
    (fullName.findIdx? (· = UInt8.ofNat '.'.toNat)).map fun i =>
      (fullName.take i, (fullName.drop (i + 1)).take (fullName.length - i - 1))

def setTinyPBError (msg : TinyPBProtocol) (errCode : Int32) (errInfo : Bytes) :
    TinyPBProtocol :=
  { msg with errCode := errCode, errInfo := errInfo, errInfoLen := .ofNat errInfo.length }

/-- `RpcDispatcher::dispatch`: the response as it is left, and the calls made. -/
def dispatch (d : RpcDispatcher Method Message) (request response : TinyPBProtocol) :
    TinyPBProtocol × List (Invocation Method Message) :=
  let rsp := { response with msgId := request.msgId, methodName := request.methodName }
  match parseServiceFullName request.methodName with
  | none => (setTinyPBError rsp errorParseServiceName (ascii "parse service name error"), [])
  | some (serviceName, methodName) =>
      match d.serviceMap serviceName with
      | none => (setTinyPBError rsp errorServiceNotFound (ascii "service not found"), [])
      | some service =>
          match service.findMethodByName methodName with
          | none => (setTinyPBError rsp errorMethodNotFound (ascii "method not found"), [])
          | some method =>
              match service.parseFromString method request.pbData with
              | none => (setTinyPBError rsp errorFailedDeserialize (ascii "deserilize error"), [])
              | some reqMsg =>
                  let controller := RpcController.setMsgId {} request.msgId
                  let rspMsg := service.callMethod method controller reqMsg
                  let (success, data) := service.serializeToString method rspMsg
                  let rsp := { rsp with errCode := 0, pbData := data }
                  (if success then rsp
                    else setTinyPBError rsp errorFailedSerialize (ascii "serilize error"),
                    [⟨serviceName, method, controller, reqMsg⟩])

section Stages

variable (d : RpcDispatcher Method Message) (request : TinyPBProtocol)

/-- The name parses, the service and the method are found, and the request
parses: the method `inv` is called. -/
structure Reaches (service : Service Method Message) (inv : Invocation Method Message) :
    Prop where
  names : ∃ methodName,
    parseServiceFullName request.methodName = some (inv.serviceName, methodName) ∧
      d.serviceMap inv.serviceName = some service ∧
      service.findMethodByName methodName = some inv.method
  parses : service.parseFromString inv.method request.pbData = some inv.request
  controller_eq : inv.controller = { msgId := request.msgId }

def answer (service : Service Method Message) (inv : Invocation Method Message) :
    Bool × Bytes :=
  service.serializeToString inv.method
    (service.callMethod inv.method inv.controller inv.request)

/-- All stages succeed, and the result serializes to `data`. -/
def Succeeds (data : Bytes) : Prop :=
  ∃ service inv, Reaches d request service inv ∧ answer service inv = (true, data)

/-- The first stage that fails is the one with the error `code`. -/
inductive FirstFails : Int32 → Prop
  | name (h : parseServiceFullName request.methodName = none) :
      FirstFails errorParseServiceName
  | service {serviceName methodName : Bytes}
      (hname : parseServiceFullName request.methodName = some (serviceName, methodName))
      (h : d.serviceMap serviceName = none) : FirstFails errorServiceNotFound
  | method {serviceName methodName : Bytes} {service : Service Method Message}
      (hname : parseServiceFullName request.methodName = some (serviceName, methodName))
      (hservice : d.serviceMap serviceName = some service)
      (h : service.findMethodByName methodName = none) : FirstFails errorMethodNotFound
  | request {serviceName methodName : Bytes} {service : Service Method Message} {method : Method}
      (hname : parseServiceFullName request.methodName = some (serviceName, methodName))
      (hservice : d.serviceMap serviceName = some service)
      (hmethod : service.findMethodByName methodName = some method)
      (h : service.parseFromString method request.pbData = none) :
      FirstFails errorFailedDeserialize
  | result {service : Service Method Message} {inv : Invocation Method Message} {data : Bytes}
      (hreaches : Reaches d request service inv) (h : answer service inv = (false, data)) :
      FirstFails errorFailedSerialize

end Stages

/-- What the response to a request says. -/
structure Replies (d : RpcDispatcher Method Message) (request response : TinyPBProtocol) :
    Prop where
  msgId_eq : response.msgId = request.msgId
  methodName_eq : response.methodName = request.methodName
  errCode_eq_zero_iff : response.errCode = 0 ↔ ∃ data, Succeeds d request data
  pbData_eq : ∀ data, Succeeds d request data → response.pbData = data
  firstFails : response.errCode ≠ 0 → FirstFails d request response.errCode

/-- The method is called once when the request reaches it, and not at all
otherwise. -/
def Calls (d : RpcDispatcher Method Message) (request : TinyPBProtocol)
    (calls : List (Invocation Method Message)) : Prop :=
  (∃ service inv, Reaches d request service inv ∧ calls = [inv]) ∨
    (∀ service inv, ¬ Reaches d request service inv) ∧ calls = []

section Dispatch

variable {d : RpcDispatcher Method Message} {request : TinyPBProtocol}

theorem FirstFails.ne_zero {code : Int32} (h : FirstFails d request code) : code ≠ 0 := by
  cases h <;> decide

theorem Reaches.unique {service service' : Service Method Message}
    {inv inv' : Invocation Method Message} (h : Reaches d request service inv)
    (h' : Reaches d request service' inv') : service = service' ∧ inv = inv' := by
  obtain ⟨⟨methodName, hname, hservice, hmethod⟩, hparse, hcontroller⟩ := h
  obtain ⟨⟨methodName', hname', hservice', hmethod'⟩, hparse', hcontroller'⟩ := h'
  obtain ⟨serviceName, method, controller, reqMsg⟩ := inv
  obtain ⟨serviceName', method', controller', reqMsg'⟩ := inv'
  dsimp only at *
  cases hname.symm.trans hname'
  cases hservice.symm.trans hservice'
  cases hmethod.symm.trans hmethod'
  cases hparse.symm.trans hparse'
  cases hcontroller.trans hcontroller'.symm
  exact ⟨rfl, rfl⟩

/-- The dispatcher reads three fields of the request. -/
theorem dispatch_congr {request' : TinyPBProtocol} (hmsgId : request.msgId = request'.msgId)
    (hmethodName : request.methodName = request'.methodName)
    (hpbData : request.pbData = request'.pbData) (response : TinyPBProtocol) :
    d.dispatch request response = d.dispatch request' response := by
  simp only [dispatch, hmsgId, hmethodName, hpbData]

theorem FirstFails.not_reaches {code : Int32} (h : FirstFails d request code)
    (hcode : code ≠ errorFailedSerialize) (service : Service Method Message)
    (inv : Invocation Method Message) : ¬ Reaches d request service inv := by
  rintro ⟨⟨methodName, hname, hservice, hmethod⟩, hparse, _⟩
  cases h with
  | name h => cases h.symm.trans hname
  | service hname' h =>
      cases hname.symm.trans hname'
      cases hservice.symm.trans h
  | method hname' hservice' h =>
      cases hname.symm.trans hname'
      cases hservice.symm.trans hservice'
      cases hmethod.symm.trans h
  | request hname' hservice' hmethod' h =>
      cases hname.symm.trans hname'
      cases hservice.symm.trans hservice'
      cases hmethod.symm.trans hmethod'
      cases hparse.symm.trans h
  | result => exact hcode rfl

theorem FirstFails.not_succeeds {code : Int32} (h : FirstFails d request code) (data : Bytes) :
    ¬ Succeeds d request data := by
  rintro ⟨service, inv, hreaches, hanswer⟩
  by_cases hcode : code = errorFailedSerialize
  · subst hcode
    cases h with
    | result hreaches' hfails =>
        obtain ⟨rfl, rfl⟩ := hreaches.unique hreaches'
        cases hanswer.symm.trans hfails
  · exact h.not_reaches hcode service inv hreaches

theorem FirstFails.replies {code : Int32} (h : FirstFails d request code)
    {response : TinyPBProtocol} (hmsgId : response.msgId = request.msgId)
    (hmethodName : response.methodName = request.methodName) (hcode : response.errCode = code) :
    Replies d request response := by
  refine ⟨hmsgId, hmethodName, ?_, fun data hdata => absurd hdata (h.not_succeeds data), ?_⟩
  · refine iff_of_false (hcode ▸ h.ne_zero) ?_
    rintro ⟨data, hdata⟩
    exact h.not_succeeds data hdata
  · rintro _
    exact hcode ▸ h

theorem Succeeds.replies {data : Bytes} (h : Succeeds d request data)
    {response : TinyPBProtocol} (hmsgId : response.msgId = request.msgId)
    (hmethodName : response.methodName = request.methodName) (hcode : response.errCode = 0)
    (hdata : response.pbData = data) : Replies d request response := by
  refine ⟨hmsgId, hmethodName, iff_of_true hcode ⟨data, h⟩, ?_, fun hne => absurd hcode hne⟩
  rintro data' ⟨service', inv', hreaches', hanswer'⟩
  obtain ⟨service, inv, hreaches, hanswer⟩ := h
  obtain ⟨rfl, rfl⟩ := hreaches.unique hreaches'
  cases hanswer.symm.trans hanswer'
  exact hdata

/-- The response to a request that reaches no method, or whose method answers. -/
def baseResponse (request : TinyPBProtocol) : TinyPBProtocol :=
  { msgId := request.msgId, methodName := request.methodName }

/-- The dispatcher either stops at a stage before the call, with the error of this
stage, or calls the method once and answers with its result. -/
theorem dispatch_cases (d : RpcDispatcher Method Message) (request : TinyPBProtocol) :
    (∃ code info, FirstFails d request code ∧ code ≠ errorFailedSerialize ∧
      d.dispatch request {} = (setTinyPBError (baseResponse request) code info, [])) ∨
    ∃ service inv success data, Reaches d request service inv ∧
      answer service inv = (success, data) ∧
      d.dispatch request {} =
        (if success then { baseResponse request with pbData := data }
          else setTinyPBError { baseResponse request with pbData := data } errorFailedSerialize
            (ascii "serilize error"), [inv]) := by
  unfold dispatch
  cases hname : parseServiceFullName request.methodName with
  | none => exact Or.inl ⟨_, _, .name hname, by decide, rfl⟩
  | some names =>
      obtain ⟨serviceName, methodName⟩ := names
      cases hservice : d.serviceMap serviceName with
      | none =>
          simp only [hservice]
          exact Or.inl ⟨_, _, .service hname hservice, by decide, rfl⟩
      | some service =>
          cases hmethod : service.findMethodByName methodName with
          | none =>
              simp only [hservice, hmethod]
              exact Or.inl ⟨_, _, .method hname hservice hmethod, by decide, rfl⟩
          | some method =>
              cases hparse : service.parseFromString method request.pbData with
              | none =>
                  simp only [hservice, hmethod, hparse]
                  exact Or.inl ⟨_, _, .request hname hservice hmethod hparse, by decide, rfl⟩
              | some reqMsg =>
                  have hreaches : Reaches d request service
                      ⟨serviceName, method, { msgId := request.msgId }, reqMsg⟩ :=
                    ⟨⟨methodName, hname, hservice, hmethod⟩, hparse, rfl⟩
                  simp only [hservice, hmethod, hparse]
                  exact Or.inr ⟨service, _, _, _, hreaches, rfl, rfl⟩

/-- The dispatcher answers a request with the response of its stages, and calls
its method once when the request reaches it. -/
theorem dispatch_spec (d : RpcDispatcher Method Message) (request : TinyPBProtocol) :
    Replies d request (d.dispatch request {}).1 ∧ Calls d request (d.dispatch request {}).2 := by
  rcases dispatch_cases d request with
    ⟨code, info, hfirst, hcode, heq⟩ | ⟨service, inv, success, data, hreaches, hanswer, heq⟩
  · rw [heq]
    exact ⟨hfirst.replies rfl rfl rfl, Or.inr ⟨hfirst.not_reaches hcode, rfl⟩⟩
  · rw [heq]
    refine ⟨?_, Or.inl ⟨service, inv, hreaches, rfl⟩⟩
    cases success with
    | true =>
        have hsucceeds : Succeeds d request data := ⟨service, inv, hreaches, hanswer⟩
        exact hsucceeds.replies rfl rfl rfl rfl
    | false =>
        have hfirst : FirstFails d request errorFailedSerialize := .result hreaches hanswer
        exact hfirst.replies rfl rfl rfl

theorem pbData_dispatch (d : RpcDispatcher Method Message) (request : TinyPBProtocol) :
    (d.dispatch request {}).1.pbData = [] ∨
      ∃ service inv success, Reaches d request service inv ∧
        answer service inv = (success, (d.dispatch request {}).1.pbData) := by
  rcases dispatch_cases d request with
    ⟨code, info, _, _, heq⟩ | ⟨service, inv, success, data, hreaches, hanswer, heq⟩
  · exact Or.inl (by rw [heq]; rfl)
  · refine Or.inr ⟨service, inv, success, hreaches, ?_⟩
    rw [heq, hanswer]
    cases success <;> rfl

end Dispatch

end RpcDispatcher

end Rocket
