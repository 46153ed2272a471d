import Mathlib.Data.List.Nodup
import Rocket.Net.Rpc.RpcChannel

/-!
# How requests are routed

The name of a method is that of its service, a dot, and its own name. A client sends
this name, and the dispatcher looks up the service under what stands before the first
dot. So a service is found if its own name has no dot in it, and a service that lies in
a package is not.
-/

namespace Rocket

def dot : UInt8 := UInt8.ofNat '.'.toNat

/-- A service with what its descriptor says. The methods that protobuf finds by name are
those of the descriptor. -/
structure DescribedService (Method Message : Type) where
  service : Service Method Message
  /-- `GetDescriptor()->full_name()` -/
  fullName : Bytes
  methods : List Method
  /-- `MethodDescriptor::name` -/
  methodName : Method → Bytes
  find_eq_some_iff : ∀ name method,
    service.findMethodByName name = some method ↔ method ∈ methods ∧ methodName method = name

namespace DescribedService

variable {Method Message : Type}

/-- `MethodDescriptor::full_name`. -/
def methodFullName (s : DescribedService Method Message) (method : Method) : Bytes :=
  s.fullName ++ dot :: s.methodName method

end DescribedService

namespace RpcDispatcher

variable {Method Message : Type}

/-- `RpcDispatcher::registerService`. -/
def registerService (d : RpcDispatcher Method Message) (s : DescribedService Method Message) :
    RpcDispatcher Method Message :=
  ⟨Function.update d.serviceMap s.fullName (some s.service)⟩

def registered (services : List (DescribedService Method Message)) :
    RpcDispatcher Method Message :=
  services.foldl registerService ⟨fun _ => none⟩

/-- What the dispatcher selects for a name: the stages of `dispatch` before the request
is parsed. -/
def select (d : RpcDispatcher Method Message) (fullName : Bytes) :
    Option (Bytes × Service Method Message × Method) := do
  let (serviceName, methodName) ← parseServiceFullName fullName
  let service ← d.serviceMap serviceName
  let method ← service.findMethodByName methodName
  some (serviceName, service, method)

/-- The dispatcher selects the method of the service, and calls it if the request parses. -/
structure Selects (d : RpcDispatcher Method Message) (request : TinyPBProtocol)
    (s : DescribedService Method Message) (method : Method) : Prop where
  select_eq : d.select request.methodName = some (s.fullName, s.service, method)
  calls_eq : (d.dispatch request {}).2 =
    (s.service.parseFromString method request.pbData).toList.map fun reqMsg =>
      ⟨s.fullName, method, { msgId := request.msgId }, reqMsg⟩

/-- The dispatcher selects no method, and answers with an error. -/
structure SelectsNone (d : RpcDispatcher Method Message) (request : TinyPBProtocol) : Prop where
  select_eq : d.select request.methodName = none
  errCode_mem : (d.dispatch request {}).1.errCode ∈
    [errorParseServiceName, errorServiceNotFound, errorMethodNotFound]
  calls_eq : (d.dispatch request {}).2 = []

/-- A request with the name of a method selects the method, and a request with any other
name selects none. -/
structure Routes (services : List (DescribedService Method Message)) : Prop where
  selects : ∀ s ∈ services, ∀ method ∈ s.methods, ∀ request : TinyPBProtocol,
    request.methodName = s.methodFullName method → Selects (registered services) request s method
  rejects : ∀ request : TinyPBProtocol, (∀ s ∈ services, ∀ method ∈ s.methods,
    request.methodName ≠ s.methodFullName method) → SelectsNone (registered services) request

theorem parseServiceFullName_eq_some_iff (fullName serviceName methodName : Bytes) :
    parseServiceFullName fullName = some (serviceName, methodName) ↔
      dot ∉ serviceName ∧ fullName = serviceName ++ dot :: methodName := by
  constructor
  · intro h
    rw [parseServiceFullName, Option.ite_none_left_eq_some, Option.map_eq_some_iff] at h
    obtain ⟨_, i, hfind, heq⟩ := h
    obtain ⟨hi, hdot, hbefore⟩ := List.findIdx?_eq_some_iff_getElem.1 hfind
    obtain ⟨rfl, rfl⟩ := Prod.mk.inj heq
    constructor
    · intro hmem
      obtain ⟨j, hj, hget⟩ := List.mem_iff_getElem.1 hmem
      rw [List.length_take] at hj
      rw [List.getElem_take] at hget
      exact hbefore j (by omega) (decide_eq_true hget)
    · have hmark : fullName[i] = dot := of_decide_eq_true hdot
      have hrest : (fullName.drop (i + 1)).take (fullName.length - i - 1) =
          fullName.drop (i + 1) := List.take_of_length_le (by rw [List.length_drop]; omega)
      rw [hrest, ← hmark, List.getElem_cons_drop, List.take_append_drop]
  · rintro ⟨hdot, rfl⟩
    have hfind : (serviceName ++ dot :: methodName).findIdx? (· = UInt8.ofNat '.'.toNat) =
        some serviceName.length := findIdx?_append_cons hdot methodName
    rw [parseServiceFullName, if_neg (by simp), hfind, Option.map_some]
    simp

section Select

variable {d : RpcDispatcher Method Message} {services : List (DescribedService Method Message)}

theorem select_eq_some_iff (fullName serviceName : Bytes) (service : Service Method Message)
    (method : Method) : d.select fullName = some (serviceName, service, method) ↔
      ∃ methodName, (dot ∉ serviceName ∧ fullName = serviceName ++ dot :: methodName) ∧
        d.serviceMap serviceName = some service ∧
        service.findMethodByName methodName = some method := by
  simp only [select, Option.bind_eq_bind, Option.bind_eq_some_iff, Prod.exists, Option.some.injEq,
    Prod.mk.injEq, parseServiceFullName_eq_some_iff]
  constructor
  · rintro ⟨serviceName', methodName, hname, service', hservice, method', hmethod, rfl, rfl, rfl⟩
    exact ⟨methodName, hname, hservice, hmethod⟩
  · rintro ⟨methodName, hname, hservice, hmethod⟩
    exact ⟨serviceName, methodName, hname, service, hservice, method, hmethod, rfl, rfl, rfl⟩

theorem selects_of_select {request : TinyPBProtocol} {s : DescribedService Method Message}
    {method : Method}
    (h : d.select request.methodName = some (s.fullName, s.service, method)) :
    Selects d request s method := by
  refine ⟨h, ?_⟩
  obtain ⟨methodName, hname, hservice, hmethod⟩ := (select_eq_some_iff _ _ _ _).1 h
  have hparse := (parseServiceFullName_eq_some_iff _ _ _).2 hname
  simp only [dispatch, hparse, hservice, hmethod]
  cases s.service.parseFromString method request.pbData <;> rfl

theorem selectsNone_of_select {request : TinyPBProtocol}
    (h : d.select request.methodName = none) : SelectsNone d request := by
  have hdispatch : ∃ code ∈ [errorParseServiceName, errorServiceNotFound, errorMethodNotFound],
      ∃ info, d.dispatch request {} = (setTinyPBError (baseResponse request) code info, []) := by
    cases hname : parseServiceFullName request.methodName with
    | none => exact ⟨errorParseServiceName, by decide, _, by simp only [dispatch, hname]; rfl⟩
    | some names =>
        cases hservice : d.serviceMap names.1 with
        | none =>
            refine ⟨errorServiceNotFound, by decide, ascii "service not found", ?_⟩
            simp only [dispatch, hname, hservice]
            rfl
        | some service =>
            cases hmethod : service.findMethodByName names.2 with
            | none =>
                refine ⟨errorMethodNotFound, by decide, ascii "method not found", ?_⟩
                simp only [dispatch, hname, hservice, hmethod]
                rfl
            | some method =>
                simp only [select, hname, hservice, hmethod, Option.bind_eq_bind,
                  Option.bind_some] at h
                cases h
  obtain ⟨code, hcode, info, heq⟩ := hdispatch
  exact ⟨h, by rw [heq]; exact hcode, by rw [heq]⟩

theorem serviceMap_registered (hdistinct : (services.map DescribedService.fullName).Nodup)
    (name : Bytes) (service : Service Method Message) :
    (registered services).serviceMap name = some service ↔
      ∃ s ∈ services, s.fullName = name ∧ s.service = service := by
  induction services using List.reverseRecOn with
  | nil => simp [registered]
  | append_singleton services s ih =>
      rw [List.map_append, List.nodup_append] at hdistinct
      obtain ⟨hservices, _, hnew⟩ := hdistinct
      have hother (s' : DescribedService Method Message) (hs' : s' ∈ services) :
          s'.fullName ≠ s.fullName :=
        hnew _ (List.mem_map_of_mem hs') _ (by simp)
      rw [registered, List.foldl_append]
      change (registerService (registered services) s).serviceMap name = some service ↔ _
      rw [registerService]
      by_cases hname : name = s.fullName
      · subst hname
        simp only [Function.update_self, Option.some.injEq]
        constructor
        · rintro rfl
          exact ⟨s, by simp, rfl, rfl⟩
        · rintro ⟨s', hs', hfull, rfl⟩
          rcases List.mem_append.1 hs' with hs' | hs'
          · exact absurd hfull (hother s' hs')
          · rw [List.mem_singleton.1 hs']
      · simp only [Function.update_of_ne hname, ih hservices]
        constructor
        · rintro ⟨s', hs', hfull, hservice⟩
          exact ⟨s', List.mem_append_left _ hs', hfull, hservice⟩
        · rintro ⟨s', hs', hfull, hservice⟩
          rcases List.mem_append.1 hs' with hs' | hs'
          · exact ⟨s', hs', hfull, hservice⟩
          · rw [List.mem_singleton] at hs'
            subst hs'
            exact absurd hfull.symm hname

/-- A name selects a method only if it is the name of the method, and the service does
not lie in a package. -/
theorem select_registered_iff (hdistinct : (services.map DescribedService.fullName).Nodup)
    (fullName serviceName : Bytes) (service : Service Method Message) (method : Method) :
    (registered services).select fullName = some (serviceName, service, method) ↔
      ∃ s ∈ services, method ∈ s.methods ∧ dot ∉ s.fullName ∧
        fullName = s.methodFullName method ∧ serviceName = s.fullName ∧ service = s.service := by
  rw [select_eq_some_iff]
  constructor
  · rintro ⟨methodName, ⟨hdot, rfl⟩, hservice, hmethod⟩
    obtain ⟨s, hs, rfl, rfl⟩ := (serviceMap_registered hdistinct _ _).1 hservice
    obtain ⟨hmem, rfl⟩ := (s.find_eq_some_iff _ _).1 hmethod
    exact ⟨s, hs, hmem, hdot, rfl, rfl, rfl⟩
  · rintro ⟨s, hs, hmem, hdot, rfl, rfl, rfl⟩
    exact ⟨s.methodName method, ⟨hdot, rfl⟩,
      (serviceMap_registered hdistinct _ _).2 ⟨s, hs, rfl, rfl⟩,
      (s.find_eq_some_iff _ _).2 ⟨hmem, rfl⟩⟩

/-- Requests are routed to the methods that they name if and only if no service with a
method lies in a package. -/
theorem routes_iff (hdistinct : (services.map DescribedService.fullName).Nodup) :
    Routes services ↔ ∀ s ∈ services, s.methods ≠ [] → dot ∉ s.fullName := by
  constructor
  · intro h s hs hmethods
    obtain ⟨method, hmethod⟩ := List.exists_mem_of_ne_nil _ hmethods
    have hselects := h.selects s hs method hmethod { methodName := s.methodFullName method } rfl
    obtain ⟨s', _, _, hdot, _, hname, _⟩ :=
      (select_registered_iff hdistinct _ _ _ _).1 hselects.select_eq
    rwa [hname]
  · intro h
    refine ⟨fun s hs method hmethod request hname => selects_of_select ?_, fun request hother =>
      selectsNone_of_select ?_⟩
    · rw [hname, select_registered_iff hdistinct]
      exact ⟨s, hs, hmethod, h s hs (List.ne_nil_of_mem hmethod), rfl, rfl, rfl⟩
    · rw [Option.eq_none_iff_forall_ne_some]
      rintro ⟨serviceName, service, method⟩ hselect
      obtain ⟨s, hs, hmethod, _, hname, _⟩ := (select_registered_iff hdistinct _ _ _ _).1 hselect
      exact hother s hs method hmethod hname

end Select

def orderDescribed (fullName : Bytes) : DescribedService Unit Bytes where
  service := TcpConnection.orderService
  fullName := fullName
  methods := [()]
  methodName := fun _ => ascii "makeOrder"
  find_eq_some_iff name method := by
    simp only [TcpConnection.orderService, Option.ite_none_right_eq_some, List.mem_singleton,
      true_and, eq_comm (a := ascii "makeOrder"), and_true]

/-- Two services without a package. -/
theorem routes_iff_two : Routes [orderDescribed (ascii "Order"), orderDescribed (ascii "User")] :=
  (routes_iff (by decide)).2 fun s hs _ => by
    rcases List.mem_pair.1 hs with rfl | rfl <;> decide

/-- A service in a package is registered, but a call of its method does not find it. -/
theorem not_routes_package :
    let s := orderDescribed (ascii "shop.Order")
    let call : MethodCall Bytes :=
      { fullName := s.methodFullName (), controller := {}, serializeToString := (true, []),
        parseFromString := some, hasDone := false, genMsgId := ascii "1" }
    call.request.methodName = ascii "shop.Order.makeOrder" ∧
      ((registered [s]).dispatch call.request {}).1.errCode = errorServiceNotFound ∧
      ¬ Routes [s] := by
  intro s call
  refine ⟨by decide, by decide, fun h => ?_⟩
  have hselects := h.selects s List.mem_cons_self () List.mem_cons_self call.request rfl
  obtain ⟨s', _, _, hdot, _, hname, _⟩ :=
    (select_registered_iff (by decide) _ _ _ _).1 hselects.select_eq
  rw [← hname] at hdot
  exact hdot (by decide)

end RpcDispatcher

end Rocket
