import Rocket.Coroutine.Coroutine
import Rocket.Foundation.History
import Rocket.Net.Rpc.RpcDispatcher
import Rocket.Net.Tcp.Excute

/-!
# RunTime

The log prints the message id and the method name of the request that the thread is at
work on. They are in the `RunTime` of the thread: the dispatcher sets it when it calls a
method, and `LogEvent::toString` reads it. `Resume` and `Yield` switch another pointer,
which nobody reads, and the run time of a coroutine is never written.

So a method sees its own request exactly as long as no other request of the thread has
reached its method since (`sees_iff_undisturbed`).
-/

namespace Rocket

open Foundation

/-- `RunTime` -/
structure RunTime where
  msgid : Bytes := []
  methodName : Bytes := []
  deriving DecidableEq, Repr

/-- What a coroutine does for a request: `dispatch` as far as the call of the method, what
the method logs, and the end of the method. -/
inductive RequestStep where
  | dispatch (request : TinyPBProtocol)
  | log
  | finish
  deriving DecidableEq

namespace RpcDispatcher

variable {Method Message : Type}

/-- What `dispatch` sets the run time to, when it gets as far as the call of the method. -/
def runTimeOf (d : RpcDispatcher Method Message) (request : TinyPBProtocol) : Option RunTime := do
  let (serviceName, methodName) ← parseServiceFullName request.methodName
  let service ← d.serviceMap serviceName
  let method ← service.findMethodByName methodName
  let _ ← service.parseFromString method request.pbData
  some { msgid := request.msgId, methodName := methodName }

theorem isSome_runTimeOf_iff {d : RpcDispatcher Method Message} {request : TinyPBProtocol} :
    (d.runTimeOf request).isSome ↔ ∃ service inv, Reaches d request service inv := by
  constructor
  · intro h
    obtain ⟨runTime, h⟩ := Option.isSome_iff_exists.1 h
    simp only [runTimeOf, Option.bind_eq_bind, Option.bind_eq_some_iff, Prod.exists] at h
    obtain ⟨serviceName, methodName, hname, service, hservice, method, hmethod, reqMsg, hparse, -⟩ :=
      h
    exact ⟨service, ⟨serviceName, method, { msgId := request.msgId }, reqMsg⟩,
      ⟨methodName, hname, hservice, hmethod⟩, hparse, rfl⟩
  · rintro ⟨service, inv, ⟨methodName, hname, hservice, hmethod⟩, hparse, -⟩
    simp [runTimeOf, hname, hservice, hmethod, hparse]

end RpcDispatcher

/-- The run times of a thread: `t_run_time`, the pointer `t_cur_run_time` by its coroutine,
and the `m_run_time` of the coroutines. `requests` is what the coroutines have on their
stacks: the requests whose methods they are in. -/
structure RunTimes (ι : Type) where
  tRunTime : RunTime := {}
  tCurRunTime : Option (CorPtr ι) := none
  mRunTime : CorPtr ι → RunTime := fun _ => {}
  requests : CorPtr ι → Option RunTime := fun _ => none

namespace RunTimes

variable {ι β Method Message : Type} [DecidableEq ι]

/-- `RunTime::GetRunTime` -/
def getRunTime (r : RunTimes ι) : RunTime := r.tRunTime

/-- What an event of the thread does to the run times, and what the method of a request
sees if it logs. -/
def follow (d : RpcDispatcher Method Message) (r : RunTimes ι) :
    CorEvent ι RequestStep β → RunTimes ι × Option RunTime
  | .did co (.step (.dispatch request)) _ =>
      match d.runTimeOf request with
      | none => (r, none)
      | some runTime =>
          ({ r with
            tRunTime := runTime
            requests := Function.update r.requests co (some runTime) }, none)
  | .did co (.step .log) _ => (r, (r.requests co).map fun _ => r.getRunTime)
  | .did co (.step .finish) _ => ({ r with requests := Function.update r.requests co none }, none)
  | .did _ (.resume co) true => ({ r with tCurRunTime := co }, none)
  | .did _ .yield true | .returned _ => ({ r with tCurRunTime := none }, none)
  | _ => (r, none)

def machine (d : RpcDispatcher Method Message) (script : β → List (CorAction ι RequestStep β)) :
    Machine (CorThread ι RequestStep β × RunTimes ι) Unit
      (CorEvent ι RequestStep β × Option RunTime) where
  step s _ := (s.1.step script).map fun p =>
    ((p.1, (s.2.follow d p.2).1), (p.2, (s.2.follow d p.2).2))

end RunTimes

namespace CorEvent

variable {ι α β : Type}

def co : CorEvent ι α β → CorPtr ι
  | entered co _ | did co _ _ | returned co => co

def step? : CorEvent ι α β → Option α
  | did _ (.step a) _ => some a
  | _ => none

end CorEvent

namespace RunTimes

variable {ι β Method Message : Type} [DecidableEq ι]

def seen (co : CorPtr ι) (outs : List (CorEvent ι RequestStep β × Option RunTime)) :
    List RunTime :=
  outs.filterMap fun out => if out.1.co = co then out.2 else none

/-- The run times after the events of a thread, and what the methods of a coroutine have
seen by then. -/
def replay (d : RpcDispatcher Method Message) (co : CorPtr ι)
    (events : List (CorEvent ι RequestStep β)) : RunTimes ι × List RunTime :=
  events.foldl (fun p event =>
    ((p.1.follow d event).1,
      p.2 ++ if event.co = co then (p.1.follow d event).2.toList else [])) ({}, [])

/-- What the methods of a coroutine would see if it ran alone. -/
def seenAlone (d : RpcDispatcher Method Message) (co : CorPtr ι)
    (events : List (CorEvent ι RequestStep β)) : List RunTime :=
  (replay d co (events.filter fun event => event.co = co)).2

def enters (d : RpcDispatcher Method Message) (request : Option RunTime) :
    Option RequestStep → Option RunTime
  | some (.dispatch request') => (d.runTimeOf request').or request
  | some .finish => none
  | some .log | none => request

/-- The message id and the method name of the request whose method a coroutine is in. -/
def requestOf (d : RpcDispatcher Method Message) (co : CorPtr ι)
    (events : List (CorEvent ι RequestStep β)) : Option RunTime :=
  events.foldl (fun request event =>
    if event.co = co then enters d request event.step? else request) none

def reaches (d : RpcDispatcher Method Message) (last : Option RunTime) :
    Option RequestStep → Option RunTime
  | some (.dispatch request) => (d.runTimeOf request).or last
  | some .finish | some .log | none => last

/-- The message id and the method name of the last request of the thread that has reached
its method. -/
def lastRequest (d : RpcDispatcher Method Message) (events : List (CorEvent ι RequestStep β)) :
    Option RunTime :=
  events.foldl (fun last event => reaches d last event.step?) none

/-- When a method logs, the last request of the thread that has reached its method is its
own, or has the same message id and method name. -/
def Undisturbed (d : RpcDispatcher Method Message) (before : List (CorEvent ι RequestStep β))
    (event : CorEvent ι RequestStep β) : Prop :=
  event.step? = some .log → (requestOf d event.co before).isSome →
    lastRequest d before = requestOf d event.co before

instance (d : RpcDispatcher Method Message) (before : List (CorEvent ι RequestStep β))
    (event : CorEvent ι RequestStep β) : Decidable (Undisturbed d before event) :=
  inferInstanceAs (Decidable (_ → _ → _))

/-- When a method logs, it sees the message id and the method name of its own request. -/
def SeesOwn (d : RpcDispatcher Method Message)
    (before : List (CorEvent ι RequestStep β × Option RunTime))
    (out : CorEvent ι RequestStep β × Option RunTime) : Prop :=
  out.1.step? = some .log → (requestOf d out.1.co (before.map Prod.fst)).isSome →
    out.2 = requestOf d out.1.co (before.map Prod.fst)

section Follow

variable {d : RpcDispatcher Method Message} {r : RunTimes ι}
  {event : CorEvent ι RequestStep β}

theorem requests_follow (co : CorPtr ι) : (r.follow d event).1.requests co =
    if event.co = co then enters d (r.requests co) event.step? else r.requests co := by
  match event with
  | .did co' (.step (.dispatch request)) _ =>
      cases hreaches : d.runTimeOf request <;>
        simp [follow, CorEvent.co, CorEvent.step?, enters, hreaches, Function.update_apply, eq_comm]
  | .did co' (.step .finish) _ =>
      simp [follow, CorEvent.co, CorEvent.step?, enters, Function.update_apply, eq_comm]
  | .did _ (.step .log) _ | .did _ (.resume _) true | .did _ (.resume _) false
  | .did _ .yield true | .did _ .yield false | .did _ (.setCallBack _ _) _ | .returned _
  | .entered _ _ => exact (ite_self _).symm

theorem tRunTime_follow {last : Option RunTime} (h : r.tRunTime = last.getD {}) :
    (r.follow d event).1.tRunTime = (reaches d last event.step?).getD {} := by
  match event with
  | .did co' (.step (.dispatch request)) _ =>
      cases hreaches : d.runTimeOf request <;>
        simp [follow, CorEvent.step?, reaches, hreaches, h]
  | .did _ (.step .finish) _ | .did _ (.step .log) _ | .did _ (.resume _) true
  | .did _ (.resume _) false | .did _ .yield true | .did _ .yield false
  | .did _ (.setCallBack _ _) _ | .returned _ | .entered _ _ => exact h

theorem snd_follow : (r.follow d event).2 =
    if event.step? = some .log then (r.requests event.co).map fun _ => r.tRunTime else none := by
  match event with
  | .did co' (.step (.dispatch request)) _ =>
      cases hreaches : d.runTimeOf request <;> simp [follow, CorEvent.step?, hreaches]
  | .did _ (.step .finish) _ | .did _ (.step .log) _ | .did _ (.resume _) true
  | .did _ (.resume _) false | .did _ .yield true | .did _ .yield false
  | .did _ (.setCallBack _ _) _ | .returned _ | .entered _ _ => rfl

end Follow

section Replay

variable {d : RpcDispatcher Method Message} {co : CorPtr ι}
  {events : List (CorEvent ι RequestStep β)} {event : CorEvent ι RequestStep β}

theorem replay_append_singleton :
    replay d co (events ++ [event]) =
      (((replay d co events).1.follow d event).1, (replay d co events).2 ++
        if event.co = co then ((replay d co events).1.follow d event).2.toList else []) :=
  List.foldl_append ..

theorem requestOf_append_singleton : requestOf d co (events ++ [event]) =
    if event.co = co then enters d (requestOf d co events) event.step?
    else requestOf d co events :=
  List.foldl_append ..

omit [DecidableEq ι] in
theorem lastRequest_append_singleton :
    lastRequest d (events ++ [event]) = reaches d (lastRequest d events) event.step? :=
  List.foldl_append ..

/-- A coroutine has on its stack the request whose method it is in, and the run time of the
thread is that of the last request. -/
theorem replay_spec (co' : CorPtr ι) (events : List (CorEvent ι RequestStep β)) :
    (∀ co, (replay d co' events).1.requests co = requestOf d co events) ∧
      (replay d co' events).1.tRunTime = (lastRequest d events).getD {} := by
  induction events using List.reverseRecOn with
  | nil => exact ⟨fun _ => rfl, rfl⟩
  | append_singleton events event ih =>
      rw [replay_append_singleton, lastRequest_append_singleton]
      refine ⟨fun co => ?_, tRunTime_follow ih.2⟩
      rw [requestOf_append_singleton, ← ih.1 co]
      exact requests_follow co

theorem snd_replay_append_singleton : (replay d co (events ++ [event])).2 =
    (replay d co events).2 ++ if event.co = co ∧ event.step? = some .log then
      ((requestOf d co events).map fun _ => (lastRequest d events).getD {}).toList else [] := by
  obtain ⟨hrequests, htime⟩ := replay_spec (d := d) co events
  rw [replay_append_singleton, snd_follow, hrequests, htime]
  by_cases hco : event.co = co
  · by_cases hlog : event.step? = some .log <;> simp [hco, hlog]
  · simp [hco]

theorem exists_lastRequest {runTime : RunTime} (h : requestOf d co events = some runTime) :
    ∃ runTime', lastRequest d events = some runTime' := by
  induction events using List.reverseRecOn with
  | nil => cases h
  | append_singleton events event ih =>
      rw [requestOf_append_singleton] at h
      rw [lastRequest_append_singleton]
      match hstep : event.step? with
      | some (.dispatch request) =>
          cases hreaches : d.runTimeOf request with
          | none =>
              rw [hstep, enters, hreaches, Option.none_or, ite_self] at h
              rw [reaches, hreaches, Option.none_or]
              exact ih h
          | some runTime' => exact ⟨runTime', by rw [reaches, hreaches, Option.some_or]⟩
      | some .finish =>
          rw [hstep] at h
          exact ih (Option.ite_none_left_eq_some.1 h).2
      | some .log | none =>
          rw [hstep, enters, ite_self] at h
          exact ih h

theorem filter_append_of_co (hco : event.co = co) :
    (events ++ [event]).filter (fun event => event.co = co) =
      events.filter (fun event => event.co = co) ++ [event] := by
  simp [hco]

theorem filter_append_of_ne (hco : event.co ≠ co) :
    (events ++ [event]).filter (fun event => event.co = co) =
      events.filter fun event => event.co = co := by
  simp [hco]

theorem requestOf_filter (events : List (CorEvent ι RequestStep β)) :
    requestOf d co (events.filter fun event => event.co = co) = requestOf d co events ∧
      ∀ runTime, requestOf d co events = some runTime →
        lastRequest d (events.filter fun event => event.co = co) = some runTime := by
  induction events using List.reverseRecOn with
  | nil => exact ⟨rfl, nofun⟩
  | append_singleton events event ih =>
      obtain ⟨hrequest, hlast⟩ := ih
      by_cases hco : event.co = co
      · rw [filter_append_of_co hco, requestOf_append_singleton, requestOf_append_singleton,
          lastRequest_append_singleton, hrequest, if_pos hco]
        refine ⟨rfl, fun runTime h => ?_⟩
        match hstep : event.step? with
        | some (.dispatch request) =>
            rw [hstep, enters] at h
            rw [reaches]
            cases hreaches : d.runTimeOf request with
            | none =>
                rw [hreaches] at h
                exact hlast runTime h
            | some runTime' =>
                rw [hreaches] at h
                exact h
        | some .finish =>
            rw [hstep] at h
            cases h
        | some .log | none =>
            rw [hstep] at h
            exact hlast runTime h
      · rw [filter_append_of_ne hco, requestOf_append_singleton, if_neg hco]
        exact ⟨hrequest, hlast⟩

theorem seenAlone_append_singleton : seenAlone d co (events ++ [event]) =
    seenAlone d co events ++ if event.co = co ∧ event.step? = some .log then
      (requestOf d co events).toList else [] := by
  by_cases hco : event.co = co
  · obtain ⟨hrequest, hlast⟩ : requestOf d co (events.filter fun event => event.co = co) = _ ∧
        ∀ runTime, _ → _ := requestOf_filter events
    rw [seenAlone, filter_append_of_co hco, snd_replay_append_singleton, hrequest, ← seenAlone]
    cases h : requestOf d co events with
    | none => rfl
    | some runTime =>
        rw [hlast runTime h]
        rfl
  · rw [seenAlone, filter_append_of_ne hco, ← seenAlone, if_neg fun h => hco h.1, List.append_nil]

/-- What the methods of a coroutine see is what they would see alone iff none of them has
been disturbed when it logs. -/
theorem snd_replay_eq_seenAlone_iff (events : List (CorEvent ι RequestStep β)) :
    (replay d co events).2 = seenAlone d co events ↔
      AtEach (fun before event => event.co = co → Undisturbed d before event) events := by
  induction events using List.reverseRecOn with
  | nil => exact iff_of_true rfl atEach_nil
  | append_singleton events event ih =>
      rw [snd_replay_append_singleton, seenAlone_append_singleton, atEach_append_singleton, ← ih]
      by_cases hlog : event.co = co ∧ event.step? = some .log
      · obtain ⟨rfl, hstep⟩ := hlog
        rw [if_pos ⟨rfl, hstep⟩, if_pos ⟨rfl, hstep⟩]
        cases hrequest : requestOf d event.co events with
        | none => simp [Undisturbed, hrequest]
        | some runTime =>
            obtain ⟨last, hlast⟩ := exists_lastRequest hrequest
            simp [Undisturbed, hstep, hrequest, hlast]
      · rw [if_neg hlog, if_neg hlog, List.append_nil, List.append_nil]
        exact (and_iff_left fun hco hstep => absurd ⟨hco, hstep⟩ hlog).symm

end Replay

section Run

variable {d : RpcDispatcher Method Message} {script : β → List (CorAction ι RequestStep β)}
  {main : List (CorAction ι RequestStep β)} {s : CorThread ι RequestStep β × RunTimes ι}
  {is : List Unit} {outs : List (CorEvent ι RequestStep β × Option RunTime)}

/-- What a method sees is the last request of the thread. -/
def SeesLast (d : RpcDispatcher Method Message)
    (before : List (CorEvent ι RequestStep β × Option RunTime))
    (out : CorEvent ι RequestStep β × Option RunTime) : Prop :=
  out.1.step? = some .log → out.2 = (requestOf d out.1.co (before.map Prod.fst)).map fun _ =>
    (lastRequest d (before.map Prod.fst)).getD {}

theorem replay_of_run
    (hrun : (machine d script).run (CorThread.new main, {}) is = some (s, outs)) :
    AtEach (SeesLast d) outs ∧
      ∀ co, replay d co (outs.map Prod.fst) = (s.2, seen co outs) := by
  refine Machine.run_history (I := fun s outs => AtEach (SeesLast d) outs ∧
    ∀ co, replay d co (outs.map Prod.fst) = (s.2, seen co outs)) ?_
    ⟨atEach_nil, fun _ => rfl⟩ hrun
  rintro s outs _ s' _ ⟨hsees, hreplay⟩ hstep
  obtain ⟨⟨thread, event⟩, -, heq⟩ := Option.map_eq_some_iff.1 hstep
  cases heq
  refine ⟨atEach_append_singleton.2 ⟨hsees, fun hlog => ?_⟩, fun co => ?_⟩
  · obtain ⟨hrequests, htime⟩ := replay_spec (d := d) event.co (outs.map Prod.fst)
    rw [hreplay] at hrequests htime
    rw [snd_follow, if_pos hlog, hrequests, htime]
  · rw [List.map_append, List.map_singleton, replay_append_singleton, hreplay, seen, seen,
      List.filterMap_append]
    by_cases hco : event.co = co
    · cases (s.2.follow d event).2 <;> simp [hco]
    · simp [hco]

/-- In every run of a thread, each coroutine sees what it would see alone, and each method
its own request, iff no method has been disturbed when it logs. -/
theorem sees_iff_undisturbed
    (hrun : (machine d script).run (CorThread.new main, {}) is = some (s, outs)) :
    ((∀ co, seen co outs = seenAlone d co (outs.map Prod.fst)) ↔
      AtEach (Undisturbed d) (outs.map Prod.fst)) ∧
      (AtEach (SeesOwn d) outs ↔ AtEach (Undisturbed d) (outs.map Prod.fst)) := by
  obtain ⟨hsees, hreplay⟩ := replay_of_run hrun
  constructor
  · have hco (co : CorPtr ι) : seen co outs = seenAlone d co (outs.map Prod.fst) ↔
        AtEach (fun before event => event.co = co → Undisturbed d before event)
          (outs.map Prod.fst) := by
      rw [← snd_replay_eq_seenAlone_iff, hreplay co]
    rw [forall_congr' hco, ← atEach_forall]
    exact forall₂_congr fun _ _ => forall_eq'
  · rw [atEach_map]
    refine hsees.congr fun before out hlast => ?_
    refine imp_congr_right fun hlog => imp_congr_right fun hin => ?_
    obtain ⟨runTime, hrequest⟩ := Option.isSome_iff_exists.1 hin
    obtain ⟨last, hlast'⟩ := exists_lastRequest hrequest
    rw [hlast hlog, hrequest, hlast']
    rfl

end Run

section Orders

def orderScript : ℕ → List (CorAction ℕ RequestStep ℕ)
  | 0 => [.step (.dispatch { msgId := ascii "1", methodName := ascii "Order.makeOrder" }), .yield,
      .step .log, .step .finish]
  | _ => [.step (.dispatch { msgId := ascii "2", methodName := ascii "Order.makeOrder" }), .yield,
      .step .finish]

def orderMain (cors : List ℕ) : List (CorAction ℕ RequestStep ℕ) :=
  [.setCallBack (.cor 0) 0, .setCallBack (.cor 1) 1] ++ cors.map fun k => .resume (some (.cor k))

/-- The order of the second connection comes when the first has been answered. -/
theorem sees_iff_undisturbed_inTurn : ∃ s outs,
    (machine TcpConnection.orderDispatcher orderScript).run
        (CorThread.new (orderMain [0, 0, 1]), {}) (List.replicate 14 ()) = some (s, outs) ∧
      (∀ co, seen co outs = seenAlone TcpConnection.orderDispatcher co (outs.map Prod.fst)) ∧
        AtEach (SeesOwn TcpConnection.orderDispatcher) outs := by
  have hdone : ((machine TcpConnection.orderDispatcher orderScript).run
      (CorThread.new (orderMain [0, 0, 1]), {}) (List.replicate 14 ())).map (fun p =>
        decide (AtEach (Undisturbed TcpConnection.orderDispatcher) (p.2.map Prod.fst))) =
      some true := by decide +kernel
  obtain ⟨⟨s, outs⟩, hrun, hundisturbed⟩ := Option.map_eq_some_iff.1 hdone
  obtain ⟨halone, hown⟩ := sees_iff_undisturbed hrun
  exact ⟨s, outs, hrun, halone.2 (of_decide_eq_true hundisturbed),
    hown.2 (of_decide_eq_true hundisturbed)⟩

/-- The order of the second connection comes while the first waits. -/
theorem not_sees_interleaved : ∃ s outs,
    (machine TcpConnection.orderDispatcher orderScript).run
        (CorThread.new (orderMain [0, 1, 0]), {}) (List.replicate 12 ()) = some (s, outs) ∧
      ¬ ∀ co, seen co outs = seenAlone TcpConnection.orderDispatcher co (outs.map Prod.fst) := by
  have hdone : ((machine TcpConnection.orderDispatcher orderScript).run
      (CorThread.new (orderMain [0, 1, 0]), {}) (List.replicate 12 ())).map (fun p =>
        decide (seen (.cor 0) p.2 =
          seenAlone TcpConnection.orderDispatcher (.cor 0) (p.2.map Prod.fst))) =
      some false := by decide +kernel
  obtain ⟨⟨s, outs⟩, hrun, hseen⟩ := Option.map_eq_some_iff.1 hdone
  exact ⟨s, outs, hrun, fun h => of_decide_eq_false hseen (h (.cor 0))⟩

end Orders

end RunTimes

end Rocket
