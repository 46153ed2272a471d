import Rocket.Foundation.Hosting
import Rocket.Net.Tcp.Accept
import Rocket.Net.Tcp.Served

/-!
# The clients of a server

A server with all its threads: the coroutine of `onAccept` hands one descriptor after the
other to the IO threads in turn, the tasks of a thread make its connections, and in each
thread the coroutines of its clients go on one at a time, in any order.

The threads share the group of events, and the clients of a thread share its pool. But what
a client is sent depends on nothing of all this: each thread hosts its clients in the sense
of `Foundation.Machine.Hosts`, so that a client is served as if it were alone.
-/

namespace Rocket

open Foundation Machine TcpConnection TinyPBProtocol

/-- The accept loop or a task goes on, or the coroutine of the client `i` of a thread. -/
inductive ServerOp where
  | accept (op : AcceptOp)
  | serve (thread i : ℕ) (step : ServeStep)

/-- What a step of the accept loop or of a task gives out, or the traffic of a client. -/
inductive ServerOutput where
  | accept (out : AcceptOutput)
  | serve (traffic : List Traffic)

namespace ServedClient

variable {Method Message : Type}

/-- The traffic of a step: the requests that are decoded, and what each `write` sends. -/
def traffic (client : ServedClient) : ServeStep → List Traffic
  | .excute fuel => [ConnectionLoop.traffic (.ofClient client) (.excute fuel)]
  | .onWrite results => results.map fun r => ConnectionLoop.traffic (.ofClient client) (.write r)
  | .enter | .onRead _ => []

def machine (d : RpcDispatcher Method Message) :
    Machine ServedClient ServeStep (List Traffic) where
  step client step := (client.serve d step).map fun client' => (client', client.traffic step)

/-- The client for a descriptor, as `addClient` makes it. -/
def Starts (fd : ℤ) (client : ServedClient) : Prop :=
  client.connection = .addClient fd ∧ client.place = .created

variable {d : RpcDispatcher Method Message} {client client' : ServedClient} {step : ServeStep}
  {size : ℕ} {ts : List Traffic}

/-- The writes of one call of `onWrite` send parts of the replies so far. -/
theorem serves_onWrite {l : ConnectionLoop} (h : l.Serves d size ts)
    (results : List (Hooked WriteResult)) :
    l.Serves d size (ts ++ results.map fun r => l.traffic (.write r)) := by
  induction results generalizing ts with
  | nil =>
      rw [List.map_nil, List.append_nil]
      exact h
  | cons r results ih =>
      rw [List.map_cons, List.append_cons]
      exact ih (h.silent l.place _ rfl h.inBuffer_proper rfl rfl rfl (taken_isPrefix _ _))

theorem serves_of_serve (h : (ConnectionLoop.ofClient client).Serves d size ts)
    (hsize : size < 2 ^ 31) (hserve : client.serve d step = some client') :
    (ConnectionLoop.ofClient client').Serves d size (ts ++ client.traffic step) := by
  have hstay {l : ConnectionLoop} {ts : List Traffic} (h : l.Serves d size ts) {c : TcpConnection}
      (place : ConnectionPlace) (htype : c.connectionType = l.connection.connectionType)
      (hproper : c.inBuffer.Proper)
      (hlen : c.inBuffer.buffer.length = l.connection.inBuffer.buffer.length)
      (hout : c.outBuffer = l.connection.outBuffer) :
      ConnectionLoop.Serves d size { connection := c, place := place } ts :=
    ⟨htype.trans h.connectionType_eq, hproper, hlen.trans h.length_eq, h.fits,
      hout ▸ h.outBuffer_sound, hout ▸ h.readable_eq, h.sent⟩
  cases step with
  | enter =>
      obtain ⟨hplace, heq⟩ := Option.ite_none_right_eq_some.1 hserve
      cases heq
      rw [traffic, List.append_nil]
      exact hstay h _ rfl h.inBuffer_proper rfl rfl
  | onRead results =>
      obtain ⟨hplace, hbody⟩ := Option.ite_none_right_eq_some.1 hserve
      obtain ⟨⟨c, rest⟩, hread, hrest⟩ := Option.bind_eq_some_iff.1 hbody
      obtain ⟨-, heq⟩ := Option.ite_none_right_eq_some.1 hrest
      cases heq
      obtain ⟨inBuffer, overTime, state, stop, rfl, hkeeps⟩ := onRead_frame hread
      obtain ⟨hproper, hlen⟩ := hkeeps h.inBuffer_proper (h.length_eq.trans_lt hsize)
      rw [traffic, List.append_nil]
      exact hstay h _ rfl hproper hlen rfl
  | excute fuel =>
      obtain ⟨hplace, hbody⟩ := Option.ite_none_right_eq_some.1 hserve
      obtain ⟨p, hexcute, heq⟩ := Option.bind_eq_some_iff.1 hbody
      cases heq
      exact h.excute hexcute
  | onWrite results =>
      obtain ⟨hplace, hbody⟩ := Option.ite_none_right_eq_some.1 hserve
      obtain ⟨⟨c, accepted, rest⟩, hwrite, hrest⟩ := Option.bind_eq_some_iff.1 hbody
      obtain ⟨-, heq⟩ := Option.ite_none_right_eq_some.1 hrest
      cases heq
      obtain ⟨used, -, hc, -⟩ := onWrite_spec hwrite
      subst hc
      exact hstay (serves_onWrite h results) _ rfl h.inBuffer_proper rfl rfl

theorem serves_of_steps {fd : ℤ} {steps : List ServeStep} {tss : List (List Traffic)}
    (hstarts : Starts fd client) (hrun : (machine d).run client steps = some (client', tss)) :
    (ConnectionLoop.ofClient client').Serves d 128 tss.flatten := by
  refine run_history (I := fun client tss =>
    (ConnectionLoop.ofClient client).Serves d 128 tss.flatten) ?_ ?_ hrun
  · intro client tss step client' ts hserves hstep
    obtain ⟨client₁, hserve, heq⟩ := Option.map_eq_some_iff.1 hstep
    cases heq
    rw [List.flatten_append, List.flatten_singleton]
    exact serves_of_serve hserves (by decide) hserve
  · obtain ⟨hconnection, hplace⟩ := hstarts
    have hclient : ConnectionLoop.ofClient client = { connection := addClient fd } := by
      rw [ConnectionLoop.ofClient, hconnection, hplace]
      rfl
    rw [hclient]
    exact ConnectionLoop.serves_addClient d fd

end ServedClient

namespace AcceptRun

variable {Method Message : Type}

def serverMachine (d : RpcDispatcher Method Message) :
    Machine AcceptRun ServerOp ServerOutput where
  step s
    | .accept op => (machine.step s op).map fun p => (p.1, .accept p.2)
    | .serve thread i step => do
        let client ← (s.threads thread).clients[i]?
        let (ioThread, _) ← (IOThread.machine d).step (s.threads thread) (.serve i step)
        some ({ s with threads := Function.update s.threads thread ioThread },
          .serve (client.traffic step))

def clientEvent (thread : ℕ) : ServerOp → ServerOutput →
    Option (PartyEvent ℤ ServeStep (List Traffic))
  | .accept _, .accept (.added j fd) => if j = thread then some (.joined fd) else none
  | .serve j i step, .serve ts => if j = thread then some (.stepped i step ts) else none
  | _, _ => none

def acceptOps (ops : List ServerOp) : List AcceptOp :=
  ops.filterMap fun
    | .accept op => some op
    | .serve _ _ _ => none

def acceptOuts (outs : List ServerOutput) : List AcceptOutput :=
  outs.filterMap fun
    | .accept out => some out
    | .serve _ => none

/-- Whatever `accept` has returned is dealt out to the threads in turn. -/
structure Dealt (n : ℕ) (s : AcceptRun) (ops : List AcceptOp) (outs : List AcceptOutput) :
    Prop where
  size_eq : s.ioThreads.size = n
  turn : s.ioThreads.Turn (results ops).length
  handed : ∀ i, added i outs ++ s.tasks i = dealt n i (results ops)

section Step

variable {n : ℕ} {s s' : AcceptRun} {ops : List AcceptOp} {outs : List AcceptOutput}
  {o : AcceptOutput}

theorem dealt_new (n poolSize : ℕ) : Dealt n (new n poolSize) [] [] where
  size_eq := rfl
  turn := Or.inl (congrArg Nat.cast (Nat.zero_mod n)).symm
  handed _ := rfl

theorem Dealt.onAccept (h : Dealt n s ops outs) {first second : Int32}
    (hstep : machine.step s (.onAccept first second) = some (s', o)) :
    Dealt n s' (ops ++ [.onAccept first second]) (outs ++ [o]) := by
  simp only [machine, Option.bind_eq_bind, Option.bind_eq_some_iff, Prod.exists,
    Option.some.injEq, Prod.mk.injEq] at hstep
  obtain ⟨ioThreads, thread, hget, rfl, rfl⟩ := hstep
  have hsize : 0 < s.ioThreads.size := by
    rw [IOThreadGroup.getIOThread, Option.ite_none_right_eq_some] at hget
    omega
  obtain ⟨g, hget', hg, hturn⟩ := h.turn.getIOThread hsize
  cases hget.symm.trans hget'
  rw [h.size_eq] at hg
  refine ⟨hg, ?_, fun i => ?_⟩
  · rwa [results_onAccept, List.length_append]
  · have hadded : added i (outs ++ [.submitted ((results ops).length % s.ioThreads.size)
        (acceptHook first second)]) = added i outs := by
      rw [added_append]
      exact List.append_nil _
    rw [hadded, results_onAccept, dealt_append_singleton, ← h.handed i, List.append_assoc,
      h.size_eq]
    congr 1
    by_cases hi : (results ops).length % n = i
    · rw [if_pos hi, hi]
      exact Function.update_self ..
    · rw [if_neg hi, List.append_nil]
      exact Function.update_of_ne (Ne.symm hi) ..

theorem Dealt.runTask (h : Dealt n s ops outs) {thread : ℕ}
    (hstep : machine.step s (.runTask thread) = some (s', o)) :
    Dealt n s' (ops ++ [.runTask thread]) (outs ++ [o]) := by
  obtain ⟨fd, rest, fdGroup, event, threads, htasks, rfl, hget, rfl⟩ := exists_of_runTask hstep
  refine ⟨h.size_eq, ?_, fun i => ?_⟩
  · rw [results_runTask]
    exact h.turn
  · rw [results_runTask, ← h.handed i, added_append]
    by_cases hi : thread = i
    · subst hi
      simp [added, htasks]
    · simp [added, hi, Function.update_of_ne (Ne.symm hi)]

theorem clients_of_runTask {thread : ℕ}
    (hstep : machine.step s (.runTask thread) = some (s', o)) :
    ∃ fd client, o = .added thread fd ∧ ServedClient.Starts fd client ∧
      ∃ ioThread, ioThread.clients = (s.threads thread).clients ++ [client] ∧
        s'.threads = Function.update s.threads thread ioThread := by
  cases htasks : s.tasks thread with
  | nil => simp [machine, htasks] at hstep
  | cons fd rest =>
    simp only [machine, htasks, addClient, Option.map_eq_some_iff, Option.bind_eq_bind,
      Option.bind_eq_some_iff, Prod.exists, Prod.mk.injEq] at hstep
    obtain ⟨_, ⟨fdGroup, event, -, ioThread, hadd, hs⟩, rfl, rfl⟩ := hstep
    cases hs
    simp only [IOThread.addClient, Option.bind_eq_bind, Option.bind_eq_some_iff, Prod.exists,
      Option.some.injEq] at hadd
    obtain ⟨pool, cor, -, loopCor, -, rfl⟩ := hadd
    exact ⟨fd, _, rfl, ⟨rfl, rfl⟩, _, rfl, rfl⟩

end Step

section Run

variable {d : RpcDispatcher Method Message} {n poolSize : ℕ} {s s' : AcceptRun}
  {ops : List ServerOp} {outs : List ServerOutput}

theorem clients_of_serve {thread i : ℕ} {step : ServeStep} {o : ServerOutput}
    (hstep : (serverMachine d).step s (.serve thread i step) = some (s', o)) :
    ∃ client client' ioThread, (s.threads thread).clients[i]? = some client ∧
      client.serve d step = some client' ∧ o = .serve (client.traffic step) ∧
      ioThread.clients = (s.threads thread).clients.set i client' ∧
      s' = { s with threads := Function.update s.threads thread ioThread } := by
  simp only [serverMachine, IOThread.machine, Option.bind_eq_bind, Option.bind_eq_some_iff,
    Prod.exists, Option.some.injEq, Prod.mk.injEq] at hstep
  obtain ⟨client, hget, ioThread, _, ⟨client₁, hget₁, client', hserve, rfl, -⟩, rfl, rfl⟩ := hstep
  cases hget.symm.trans hget₁
  exact ⟨client, client', _, hget, hserve, rfl, rfl, rfl⟩

theorem hosts_clients (d : RpcDispatcher Method Message) (thread : ℕ) :
    Hosts (serverMachine d) (ServedClient.machine d) (fun s => (s.threads thread).clients)
      ServedClient.Starts (clientEvent thread) := by
  intro s op s' o hstep
  cases op with
  | accept op =>
      obtain ⟨⟨s₁, out⟩, hstep', heq⟩ := Option.map_eq_some_iff.1 hstep
      cases heq
      cases op with
      | onAccept first second =>
          simp only [machine, Option.bind_eq_bind, Option.bind_eq_some_iff, Prod.exists,
            Option.some.injEq, Prod.mk.injEq] at hstep'
          obtain ⟨ioThreads, j, -, rfl, rfl⟩ := hstep'
          rfl
      | runTask j =>
          obtain ⟨fd, client, rfl, hstarts, ioThread, hclients, hthreads⟩ :=
            clients_of_runTask hstep'
          by_cases hj : j = thread
          · subst hj
            simp only [clientEvent, if_true, hthreads, Function.update_self]
            exact ⟨client, hstarts, hclients⟩
          · simp only [clientEvent, if_neg hj, hthreads, Function.update_of_ne (Ne.symm hj)]
  | serve j i step =>
      obtain ⟨client, client', ioThread, hget, hserve, rfl, hclients, rfl⟩ :=
        clients_of_serve hstep
      by_cases hj : j = thread
      · subst hj
        simp only [clientEvent, if_true, Function.update_self]
        refine ⟨client, client', hget, ?_, hclients⟩
        exact congrArg (Option.map fun client' => (client', client.traffic step)) hserve
      · simp only [clientEvent, if_neg hj, Function.update_of_ne (Ne.symm hj)]

theorem acceptOps_append (ops ops' : List ServerOp) :
    acceptOps (ops ++ ops') = acceptOps ops ++ acceptOps ops' :=
  List.filterMap_append

theorem acceptOuts_append (outs outs' : List ServerOutput) :
    acceptOuts (outs ++ outs') = acceptOuts outs ++ acceptOuts outs' :=
  List.filterMap_append

/-- Whatever the clients do, what `accept` has returned is dealt out. -/
theorem dealt_of_run (hrun : (serverMachine d).run (new n poolSize) ops = some (s, outs)) :
    Dealt n s (acceptOps ops) (acceptOuts outs) := by
  refine run_recorded (I := fun s ops outs => Dealt n s (acceptOps ops) (acceptOuts outs)) ?_
    (dealt_new n poolSize) hrun
  intro s ops outs op s' o h hstep
  rw [acceptOps_append, acceptOuts_append]
  cases op with
  | accept op =>
      obtain ⟨⟨s₁, out⟩, hstep', heq⟩ := Option.map_eq_some_iff.1 hstep
      cases heq
      cases op with
      | onAccept first second => exact h.onAccept hstep'
      | runTask j => exact h.runTask hstep'
  | serve j i step =>
      obtain ⟨client, client', ioThread, -, -, rfl, -, rfl⟩ := clients_of_serve hstep
      have hops : acceptOps [.serve j i step] = [] := rfl
      have houts : acceptOuts [.serve (client.traffic step)] = [] := rfl
      rw [hops, houts, List.append_nil, List.append_nil]
      exact ⟨h.size_eq, h.turn, h.handed⟩

/-- The descriptors with which the clients of a thread have joined are those with which
`addClient` has been called on it. -/
theorem joins_clientEvent {thread : ℕ}
    (hrun : (serverMachine d).run s ops = some (s', outs)) :
    PartyEvent.joins (partyEvents (clientEvent thread) ops outs) =
      added thread (acceptOuts outs) := by
  induction ops generalizing s outs with
  | nil =>
      cases hrun
      rfl
  | cons op ops ih =>
      obtain ⟨s₁, o, outs', hstep, hrest, rfl⟩ := (run_cons_eq_some_iff _ s op ops s' outs).1 hrun
      rw [partyEvents_cons, PartyEvent.joins_append, ih hrest]
      cases op with
      | accept op =>
          obtain ⟨⟨s₂, out⟩, -, heq⟩ := Option.map_eq_some_iff.1 hstep
          cases heq
          cases out with
          | submitted j fd => rfl
          | added j fd =>
              by_cases hj : j = thread <;>
                simp [clientEvent, PartyEvent.joins, acceptOuts, added, hj]
      | serve j i step =>
          obtain ⟨client, client', ioThread, -, -, rfl, -, rfl⟩ := clients_of_serve hstep
          by_cases hj : j = thread <;> simp [clientEvent, PartyEvent.joins, acceptOuts, hj]

def clientEvents (thread i : ℕ) (ops : List ServerOp) (outs : List ServerOutput) :
    List (ServeStep × List Traffic) :=
  PartyEvent.own i (partyEvents (clientEvent thread) ops outs)

/-- In every run of a server, whatever `accept` and the other system calls return and in
whatever order the accept loop, the tasks and the coroutines of the clients go on: the client
`i` of a thread has the `i`-th descriptor that is dealt out to the thread. It has come to where
it gets alone with its own steps, with the same traffic. And its out-buffer holds the replies to
the requests that have been decoded from its own in-buffer, and nothing else is sent to it. -/
theorem served_of_run (d : RpcDispatcher Method Message)
    (hrun : (serverMachine d).run (new n poolSize) ops = some (s, outs)) (thread : ℕ) {i : ℕ}
    {client : ServedClient} (hget : (s.threads thread).clients[i]? = some client) :
    ∃ fd start, (dealt n thread (results (acceptOps ops)))[i]? = some fd ∧
      ServedClient.Starts fd start ∧
      (ServedClient.machine d).run start ((clientEvents thread i ops outs).map Prod.fst) =
        some (client, (clientEvents thread i ops outs).map Prod.snd) ∧
      (ConnectionLoop.ofClient client).Serves d 128
        ((clientEvents thread i ops outs).map Prod.snd).flatten := by
  have halone := (hosts_clients d thread).alone_of_run rfl hrun
  obtain ⟨fd, start, hfd, hstarts, hrun'⟩ := halone.run i client hget
  refine ⟨fd, start, ?_, hstarts, hrun', ServedClient.serves_of_steps hstarts hrun'⟩
  rw [joins_clientEvent hrun] at hfd
  rw [← (dealt_of_run hrun).handed thread]
  exact (List.getElem?_append_left (List.getElem?_eq_some_iff.1 hfd).1).trans hfd

/-- Two clients of one thread. The packets of the second one arrive between the parts of those
of the first one. -/
def twoClients : List ServerOp :=
  [.accept (.onAccept 7 0), .accept (.onAccept (-1) 8), .accept (.runTask 0),
    .accept (.runTask 0), .serve 0 0 .enter, .serve 0 1 .enter,
    .serve 0 0 (.onRead [{ result := .bytes ((stream orderRequests).take 50) }]),
    .serve 0 0 (.excute 3),
    .serve 0 1 (.onRead [{ result := .bytes (stream (orderRequests.drop 1)) }]),
    .serve 0 1 (.excute 3),
    .serve 0 0 (.onWrite [{ result := .accepted 10 }, { result := .eagain }]),
    .serve 0 0 (.onRead [{ result := .bytes ((stream orderRequests).drop 50) }]),
    .serve 0 0 (.excute 3)]

theorem served_of_run_twoClients :
    ∃ s outs, (serverMachine orderDispatcher).run (new 1 3) twoClients = some (s, outs) ∧
      ∃ client, (s.threads 0).clients[1]? = some client ∧
        ∃ fd start, (dealt 1 0 (results (acceptOps twoClients)))[1]? = some fd ∧
          ServedClient.Starts fd start ∧
          (ServedClient.machine orderDispatcher).run start
              ((clientEvents 0 1 twoClients outs).map Prod.fst) =
            some (client, (clientEvents 0 1 twoClients outs).map Prod.snd) ∧
          (ConnectionLoop.ofClient client).Serves orderDispatcher 128
            ((clientEvents 0 1 twoClients outs).map Prod.snd).flatten := by
  have hrun : ((serverMachine orderDispatcher).run (new 1 3) twoClients).map
      (fun p => (p.1.threads 0).clients.length) = some 2 := by
    decide +kernel
  obtain ⟨⟨s, outs⟩, hrun, hlength⟩ := Option.map_eq_some_iff.1 hrun
  have hlt : 1 < (s.threads 0).clients.length := hlength.symm ▸ Nat.one_lt_two
  have hget := List.getElem?_eq_getElem hlt
  exact ⟨s, outs, hrun, _, hget, served_of_run orderDispatcher hrun 0 hget⟩

end Run

end AcceptRun

end Rocket
