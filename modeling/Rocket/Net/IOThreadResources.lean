import Mathlib.Data.List.Perm.Subperm
import Rocket.Net.IOThread
import Rocket.Net.Tcp.Read
import Rocket.Net.Tcp.Write

/-!
# The resources of the connections

The descriptor of a connection is open, its entry in `m_clients` is there, and the slot of
its coroutine is marked from the moment that the client is added. Nothing gives any of
them back when the peer closes: `clear` takes the connection out of epoll and stops its
loop, and the function of the coroutine returns. So the resources are those of the
connections that are not closed as long as none has closed, and the coroutines are found
in the pool.
-/

namespace Rocket

open Foundation

/-- A read meets the end of the stream. -/
def ServeStep.Closes : ServeStep → Prop
  | .onRead results => ReadResult.eof ∈ results.map Hooked.result
  | _ => False

instance : ∀ step : ServeStep, Decidable step.Closes
  | .onRead results => inferInstanceAs (Decidable (_ ∈ results.map Hooked.result))
  | .enter | .excute _ | .onWrite _ => isFalse id

def IOOp.Closes : IOOp → Prop
  | .addClient _ => False
  | .serve _ step => step.Closes

instance : ∀ op : IOOp, Decidable op.Closes
  | .addClient _ => isFalse id
  | .serve _ step => inferInstanceAs (Decidable step.Closes)

namespace ServedClient

variable {Method Message : Type} {d : RpcDispatcher Method Message}
variable {client client' : ServedClient} {step : ServeStep}

def IsClosed (client : ServedClient) : Prop := client.connection.state = .closed

instance (client : ServedClient) : Decidable client.IsClosed :=
  inferInstanceAs (Decidable (_ = _))

/-- The connection is connected and its loop goes on; or it is closed, and the loop is on
its way out. -/
def Sound (client : ServedClient) : Prop :=
  (client.connection.state = .connected ∧ client.connection.stop = false) ∨
    client.connection.state = .closed ∧ client.connection.stop = true ∧
      client.place ≠ .created ∧ client.place ≠ .onRead

/-- What a step of a coroutine does to the resources of its connection. -/
structure Served (client : ServedClient) (step : ServeStep) (client' : ServedClient) : Prop where
  fd_eq : client'.connection.fd = client.connection.fd
  loopCor_eq : client'.loopCor = client.loopCor
  sound : client'.Sound
  isClosed_iff : client'.IsClosed ↔ client.IsClosed ∨ step.Closes

theorem Sound.served_of_state (h : client.Sound) (hcor : client'.loopCor = client.loopCor)
    (hkeep : client'.connection.fd = client.connection.fd ∧
      client'.connection.state = client.connection.state ∧
      client'.connection.stop = client.connection.stop)
    (hplace : client.connection.stop = true → client'.place ≠ .created ∧ client'.place ≠ .onRead)
    (hcloses : ¬ step.Closes) : Served client step client' := by
  obtain ⟨hfd, hstate, hstop⟩ := hkeep
  refine ⟨hfd, hcor, ?_, ?_⟩
  · rcases h with ⟨hconnected, hgoes⟩ | ⟨hclosed, hstopped, _⟩
    · exact Or.inl ⟨hstate.trans hconnected, hstop.trans hgoes⟩
    · exact Or.inr ⟨hstate.trans hclosed, hstop.trans hstopped, hplace hstopped⟩
  · rw [IsClosed, IsClosed, hstate, or_iff_left hcloses]

theorem place_test (hstop : client.connection.stop = true) :
    client.test.place ≠ .created ∧ client.test.place ≠ .onRead := by
  simp [test, hstop]

theorem Sound.connected (h : client.Sound) (hplace : client.place = .onRead) :
    client.connection.state = .connected ∧ client.connection.stop = false := by
  rcases h with hopen | ⟨_, _, _, hne⟩
  · exact hopen
  · exact absurd hplace hne

/-- `onRead` stops the coroutine when it closes the connection. -/
theorem Sound.served_onRead {results : List (Hooked ReadResult)} {c : TcpConnection}
    (h : client.Sound) (hplace : client.place = .onRead)
    (hread : client.connection.onRead results = some (c, [])) :
    Served client (.onRead results) { client with connection := c, place := .excute } := by
  obtain ⟨hconnected, hgoes⟩ := h.connected hplace
  obtain ⟨hfd, hstate⟩ := TcpConnection.onRead_closes hconnected hread
  have hnot : ¬ client.IsClosed := by
    rw [IsClosed, hconnected]
    decide
  refine ⟨hfd, rfl, ?_, ?_⟩
  · split_ifs at hstate
    · exact Or.inr ⟨hstate.1, hstate.2, by simp, by simp⟩
    · exact Or.inl ⟨hstate.1, hstate.2.trans hgoes⟩
  · rw [or_iff_right hnot, IsClosed, ServeStep.Closes]
    split_ifs at hstate with heof
    · exact iff_of_true hstate.1 heof
    · refine iff_of_false ?_ heof
      rw [hstate.1]
      decide

/-- A step of the coroutine closes the connection if a read meets the end of the stream,
and keeps the resources in any case. -/
theorem Sound.serve (h : client.Sound) (hserve : client.serve d step = some client') :
    Served client step client' := by
  cases step with
  | enter =>
      obtain ⟨_, heq⟩ := Option.ite_none_right_eq_some.1 hserve
      cases heq
      exact h.served_of_state rfl ⟨rfl, rfl, rfl⟩ place_test id
  | onRead results =>
      obtain ⟨hplace, hbody⟩ := Option.ite_none_right_eq_some.1 hserve
      rcases Option.bind_eq_some_iff.1 hbody with ⟨⟨c, rest⟩, hread, hrest⟩
      obtain ⟨hnil, heq⟩ := Option.ite_none_right_eq_some.1 hrest
      cases List.length_eq_zero_iff.1 hnil
      cases heq
      exact h.served_onRead hplace hread
  | excute fuel =>
      obtain ⟨hplace, hbody⟩ := Option.ite_none_right_eq_some.1 hserve
      rcases Option.bind_eq_some_iff.1 hbody with ⟨⟨c, calls⟩, hexcute, heq⟩
      cases heq
      obtain ⟨_, _, _, rfl⟩ := TcpConnection.excute_frame hexcute
      exact h.served_of_state rfl ⟨rfl, rfl, rfl⟩ (fun _ => ⟨by simp, by simp⟩) id
  | onWrite results =>
      obtain ⟨hplace, hbody⟩ := Option.ite_none_right_eq_some.1 hserve
      rcases Option.bind_eq_some_iff.1 hbody with ⟨⟨c, accepted, rest⟩, hwrite, hrest⟩
      obtain ⟨_, heq⟩ := Option.ite_none_right_eq_some.1 hrest
      cases heq
      obtain ⟨_, _, rfl, _⟩ := TcpConnection.onWrite_spec hwrite
      exact h.served_of_state rfl ⟨rfl, rfl, rfl⟩ (fun hstop => place_test hstop) id

end ServedClient

namespace IOThread

variable {Method Message : Type} {d : RpcDispatcher Method Message}

/-- No connection is in the middle of closing. -/
def Quiet (t : IOThread) : Prop :=
  ∀ client ∈ t.clients, client.IsClosed → client.place = .returned

def connected (t : IOThread) : ℕ := (t.clients.filter fun client => ¬ client.IsClosed).length

def peak (d : RpcDispatcher Method Message) : IOThread → List IOOp → ℕ
  | t, [] => t.connected
  | t, op :: ops =>
      max t.connected (((machine d).step t op).elim 0 fun r => peak d r.1 ops)

/-- The open descriptors and the marked slots are those of the connections that are not
closed, and `k` bounds the resources of each kind. -/
structure Conserved (t : IOThread) (k : ℕ) : Prop where
  descriptors : ∀ fd, fd ∈ t.openFds ↔
    ∃ client ∈ t.clients, client.connection.fd = fd ∧ ¬ client.IsClosed
  slots : ∀ j, j ∈ t.pool.usedSlots ↔
    ∃ client ∈ t.clients, client.loopCor = j ∧ ¬ client.IsClosed
  descriptors_le : t.openFds.length ≤ k
  slots_le : t.pool.usedSlots.length ≤ k
  clients_le : t.clients.length ≤ k

/-- In every state along the run in which no connection is in the middle of closing, the
resources are conserved. -/
def ConservedAlong (d : RpcDispatcher Method Message) (start : IOThread) (ops : List IOOp) :
    Prop :=
  ∀ before after u outs, ops = before ++ after → (machine d).run start before = some (u, outs) →
    u.Quiet → u.Conserved (peak d start before)

/-- A client that is added finds a free slot among those that the loop looks at. -/
def FindsSlot (t : IOThread) : IOOp → Prop
  | .addClient _ => t.pool.FindsFree .getCoroutineInstanse
  | .serve _ _ => True

instance (t : IOThread) : ∀ op, Decidable (t.FindsSlot op)
  | .addClient _ => inferInstanceAs (Decidable (t.pool.FindsFree .getCoroutineInstanse))
  | .serve _ _ => isTrue trivial

theorem connected_le_peak {t u : IOThread} {ops : List IOOp} {outs : List Unit}
    (hrun : (machine d).run t ops = some (u, outs)) : u.connected ≤ peak d t ops := by
  induction ops generalizing t outs with
  | nil =>
      cases hrun
      exact le_rfl
  | cons op ops ih =>
      obtain ⟨t', o, outs', hstep, hrest, _⟩ :=
        (Machine.run_cons_eq_some_iff _ t op ops u outs).1 hrun
      rw [peak, hstep]
      exact (ih hrest).trans (le_max_right ..)

/-- The clients and the descriptors, whatever the pool does. -/
structure Accepted (t : IOThread) (ops : List IOOp) : Prop where
  sound : ∀ client ∈ t.clients, client.Sound
  openFds_eq : t.openFds = t.clients.map fun client => client.connection.fd
  nodup : t.openFds.Nodup
  closed_iff : (∃ client ∈ t.clients, client.IsClosed) ↔ ∃ op ∈ ops, op.Closes

section Steps

variable {t t' : IOThread} {ops : List IOOp} {op : IOOp} {i : ℕ} {client client' : ServedClient}

theorem map_clients_setClient {β : Type} (f : ServedClient → β)
    (hget : t.clients[i]? = some client) (hf : f client' = f client) :
    (t.setClient i client').clients.map f = t.clients.map f := by
  obtain ⟨hi, hclient⟩ := List.getElem?_eq_some_iff.1 hget
  rw [setClient, List.map_set, hf, ← hclient, ← List.getElem_map f (h := by simpa using hi),
    List.set_getElem_self]

theorem exists_isClosed_setClient {step : ServeStep} (hget : t.clients[i]? = some client)
    (hserved : client.Served step client') :
    (∃ c ∈ (t.setClient i client').clients, c.IsClosed) ↔
      (∃ c ∈ t.clients, c.IsClosed) ∨ step.Closes := by
  have hlt := (List.getElem?_eq_some_iff.1 hget).1
  have hmem : client' ∈ (t.setClient i client').clients := List.mem_set hlt client'
  constructor
  · rintro ⟨c, hc, hclosed⟩
    rcases List.mem_or_eq_of_mem_set hc with hc | rfl
    · exact Or.inl ⟨c, hc, hclosed⟩
    · refine (hserved.isClosed_iff.1 hclosed).imp (fun h => ?_) id
      exact ⟨client, List.mem_of_getElem? hget, h⟩
  · rintro (⟨c, hc, hclosed⟩ | hcloses)
    · obtain ⟨j, hj⟩ := List.mem_iff_getElem?.1 hc
      by_cases hij : i = j
      · subst hij
        cases hget.symm.trans hj
        exact ⟨client', hmem, hserved.isClosed_iff.2 (Or.inl hclosed)⟩
      · refine ⟨c, List.mem_of_getElem? (i := j) ?_, hclosed⟩
        rw [setClient, List.getElem?_set_ne hij, hj]
    · exact ⟨client', hmem, hserved.isClosed_iff.2 (Or.inr hcloses)⟩

/-- A client is added with the coroutine that the pool hands out, or the coroutine of a
client goes on. -/
theorem step_cases {out : Unit} (hsound : ∀ client ∈ t.clients, client.Sound)
    (hstep : (machine d).step t op = some (t', out)) :
    (∃ fd pool loopCor, op = .addClient fd ∧ fd ∉ t.openFds ∧
      t.pool.getCoroutineInstanse = some (pool, some loopCor) ∧
      t' = ⟨t.clients ++ [{ connection := .addClient fd, loopCor := loopCor }], pool,
        t.openFds ++ [fd]⟩) ∨
    ∃ i step client client', op = .serve i step ∧ t.clients[i]? = some client ∧
      client.Served step client' ∧ t' = t.setClient i client' := by
  cases op with
  | addClient fd =>
      obtain ⟨hnew, hmap⟩ := Option.ite_none_left_eq_some.1 hstep
      rcases Option.map_eq_some_iff.1 hmap with ⟨t₁, hadd, heq⟩
      cases heq
      simp only [addClient, Option.bind_eq_bind, Option.bind_eq_some_iff, Prod.exists,
        Option.some.injEq] at hadd
      obtain ⟨pool, cor, hget, loopCor, rfl, rfl⟩ := hadd
      exact Or.inl ⟨fd, pool, loopCor, rfl, hnew, hget, rfl⟩
  | serve i step =>
      simp only [machine, Option.bind_eq_bind, Option.bind_eq_some_iff, Option.some.injEq,
        Prod.mk.injEq] at hstep
      obtain ⟨client, hget, client', hserve, rfl, _⟩ := hstep
      have hclient := hsound client (List.mem_of_getElem? hget)
      exact Or.inr ⟨i, step, client, client', rfl, hget, hclient.serve hserve, rfl⟩

theorem Accepted.step {out : Unit} (h : Accepted t ops)
    (hstep : (machine d).step t op = some (t', out)) : Accepted t' (ops ++ [op]) := by
  rcases step_cases h.sound hstep with ⟨fd, pool, loopCor, rfl, hnew, _, rfl⟩ |
    ⟨i, step, client, client', rfl, hget, hserved, rfl⟩
  · have hopen : ¬ ServedClient.IsClosed
        { connection := TcpConnection.addClient fd, loopCor := loopCor } := by
      simp [ServedClient.IsClosed, TcpConnection.addClient, TcpConnection.new]
    refine ⟨?_, ?_, ?_, ?_⟩
    · intro client hclient
      rcases List.mem_append.1 hclient with hclient | hclient
      · exact h.sound client hclient
      · rw [List.mem_singleton.1 hclient]
        exact Or.inl ⟨rfl, rfl⟩
    · rw [h.openFds_eq, List.map_append]
      rfl
    · exact List.nodup_append.2 ⟨h.nodup, List.nodup_singleton fd, fun a ha b hb hab => by
        rw [List.mem_singleton] at hb
        exact hnew (hb ▸ hab ▸ ha)⟩
    · simp only [List.mem_append, List.mem_singleton, or_and_right, exists_or, exists_eq_left,
        h.closed_iff, IOOp.Closes, or_false]
      exact or_iff_left hopen
  · refine ⟨?_, ?_, ?_, ?_⟩
    · intro c hc
      rcases List.mem_or_eq_of_mem_set hc with hc | rfl
      · exact h.sound c hc
      · exact hserved.sound
    · rw [map_clients_setClient _ hget hserved.fd_eq, ← h.openFds_eq]
      rfl
    · exact h.nodup
    · rw [exists_isClosed_setClient hget hserved, h.closed_iff]
      simp only [List.mem_append, List.mem_singleton, or_and_right, exists_or, exists_eq_left,
        IOOp.Closes]

/-- The pool, as long as every request finds a free slot: the coroutines that are marked
are those of the clients. -/
structure Held (n : ℕ) (t : IOThread) : Prop where
  exclusive : t.pool.Exclusive
  index_eq : t.pool.index = 1
  poolSize_eq : t.pool.poolSize = n
  curCoroutineId_eq : t.pool.curCoroutineId = n + 1
  null : t.pool.freeCors[0]? = some ⟨none, false⟩
  handedOut_eq : t.pool.handedOut = (t.clients.map ServedClient.loopCor).reverse
  inUse_iff : ∀ j, t.pool.inUse j = true ↔ j ∈ t.pool.handedOut
  lt_poolSize : ∀ c ∈ t.pool.handedOut, c < n

theorem Held.step {n : ℕ} {out : Unit} (h : Held n t) (hsound : ∀ client ∈ t.clients, client.Sound)
    (hfree : t.FindsSlot op) (hstep : (machine d).step t op = some (t', out)) : Held n t' := by
  rcases step_cases hsound hstep with ⟨fd, pool, loopCor, rfl, _, hpool, rfl⟩ |
    ⟨i, step, client, client', rfl, hget, hserved, rfl⟩
  · have hexclusive := h.exclusive.getCoroutineInstanse hfree hpool
    obtain ⟨i, hindex, hlt, hslot, hgot⟩ := h.exclusive.getCoroutineInstanse_eq hfree
    rw [hgot] at hpool
    cases hpool
    have hpos : ¬ loopCor = 0 := by
      have := h.index_eq
      omega
    refine ⟨hexclusive, h.index_eq, h.poolSize_eq, h.curCoroutineId_eq, ?_, ?_, ?_, ?_⟩
    · rw [CoroutinePool.getElem?_mark, if_neg hpos]
      exact h.null
    · rw [h.handedOut_eq, List.map_append, List.reverse_append]
      rfl
    · intro j
      rw [List.mem_cons, ← h.inUse_iff j]
      exact CoroutinePool.inUse_mark hslot j
    · exact List.forall_mem_cons.2 ⟨h.poolSize_eq ▸ hlt, h.lt_poolSize⟩
  · refine ⟨⟨h.exclusive.nodup, h.exclusive.own, h.exclusive.inUse, h.exclusive.inBounds⟩,
      h.index_eq, h.poolSize_eq, h.curCoroutineId_eq, h.null, ?_, h.inUse_iff, h.lt_poolSize⟩
    rw [map_clients_setClient _ hget hserved.loopCor_eq, ← h.handedOut_eq]
    rfl

theorem held_new (n : ℕ) : Held n (new n) := by
  obtain ⟨hlen, hcount, hget⟩ := CoroutinePool.fill_spec n (i := 1)
    (List.replicate (n + 1) {}) (show (newCoroutine 1).1 = 1 from rfl)
    (by rw [List.length_replicate]; omega)
  have hslot (j : ℕ) : (new n).pool.freeCors[j]? = _ := hget j
  refine ⟨CoroutinePool.exclusive_new 1 n, rfl, rfl, ?_, ?_, rfl, fun j => ?_,
    List.forall_mem_nil _⟩
  · cases n with
    | zero => rfl
    | succ n => exact (hcount (Nat.succ_pos n)).trans (Nat.add_comm ..)
  · rw [hslot, if_neg (by omega), List.getElem?_replicate, if_pos (Nat.succ_pos n)]
  · refine iff_of_false (fun hused => ?_) List.not_mem_nil
    rw [CoroutinePool.inUse, hslot] at hused
    split_ifs at hused
    · cases hused
    · rw [List.getElem?_replicate] at hused
      split_ifs at hused <;> cases hused

theorem Held.conserved {n k : ℕ} (h : Held n t) (haccepted : Accepted t ops)
    (hopen : ∀ client ∈ t.clients, ¬ client.IsClosed) (hk : t.connected ≤ k) :
    t.Conserved k := by
  have hconnected : t.connected = t.clients.length := by
    rw [connected, List.filter_eq_self.2 (by simpa using hopen)]
  rw [hconnected] at hk
  have hused (j : ℕ) : j ∈ t.pool.usedSlots ↔ ∃ client ∈ t.clients, client.loopCor = j := by
    rw [CoroutinePool.mem_usedSlots, h.inUse_iff, h.handedOut_eq, List.mem_reverse, List.mem_map]
  have hsub : t.pool.usedSlots ⊆ t.clients.map ServedClient.loopCor := fun j hj =>
    List.mem_map.2 ((hused j).1 hj)
  refine ⟨fun fd => ?_, fun j => ?_, ?_, ?_, hk⟩
  · rw [haccepted.openFds_eq, List.mem_map]
    refine exists_congr fun client => and_congr_right fun hclient => ?_
    rw [and_iff_left (hopen client hclient)]
  · rw [hused]
    refine exists_congr fun client => and_congr_right fun hclient => ?_
    rw [and_iff_left (hopen client hclient)]
  · rwa [haccepted.openFds_eq, List.length_map]
  · have hle := (List.Nodup.subperm t.pool.nodup_usedSlots hsub).length_le
    rw [List.length_map] at hle
    exact hle.trans hk

/-- The descriptor of a closed client is open and belongs to no other one. -/
theorem Accepted.not_conserved {k : ℕ} (h : Accepted t ops)
    (hclosed : ∃ client ∈ t.clients, client.IsClosed) : ¬ t.Conserved k := by
  intro hconserved
  obtain ⟨client, hclient, hclosed⟩ := hclosed
  have hnodup := h.nodup
  rw [h.openFds_eq] at hnodup
  have hopen : client.connection.fd ∈ t.openFds := by
    rw [h.openFds_eq]
    exact List.mem_map_of_mem hclient
  obtain ⟨other, hother, hfd, hnot⟩ := (hconserved.descriptors _).1 hopen
  have heq := List.inj_on_of_nodup_map hnodup hother hclient hfd
  exact hnot (heq ▸ hclosed)

/-- A request that finds no free slot gets the coroutine behind the slots that the loop
looks at, and does not mark it. -/
theorem Held.grown {n loopCor : ℕ} {pool : CoroutinePool} (h : Held n t)
    (hfull : ¬ t.pool.FindsFree .getCoroutineInstanse)
    (hpool : t.pool.getCoroutineInstanse = some (pool, some loopCor)) :
    loopCor = n ∧ pool.freeCors[n]? = some ⟨some n, false⟩ := by
  have hsize := h.poolSize_eq
  have hindex := h.index_eq
  have hnone : t.pool.find (t.pool.poolSize - t.pool.index) t.pool.index = some none := by
    rcases Nat.eq_zero_or_pos n with hzero | hpos
    · rw [hsize, hzero, Nat.zero_sub]
      rfl
    · refine h.exclusive.find_eq_none (fun i hi hle => ?_) le_rfl (by omega)
      exact Bool.eq_false_iff.2 fun hfree => hfull ⟨i, hi, hle, hfree⟩
  rw [CoroutinePool.getCoroutineInstanse, hnone, Option.bind_eq_bind, Option.bind_some] at hpool
  rcases Option.bind_eq_some_iff.1 hpool with ⟨grown, hgrow, hhand⟩
  rcases Option.map_eq_some_iff.1 hhand with ⟨slot, hslot, heq⟩
  obtain ⟨rfl, hcor⟩ := Prod.mk.inj heq
  have hlen : n < t.pool.freeCors.length := by
    have := h.exclusive.inBounds.2
    have := h.curCoroutineId_eq
    omega
  have hkept : grown.freeCors[n]? = t.pool.freeCors[n]? :=
    CoroutinePool.getElem?_grow hgrow (by omega) hlen
  change grown.freeCors[t.pool.poolSize]? = some slot at hslot
  rw [hsize, hkept] at hslot
  have hown : t.pool.freeCors[n]? = some ⟨some n, false⟩ := by
    rcases Nat.eq_zero_or_pos n with rfl | hpos
    · cases h.null.symm.trans hslot
      cases hcor
    · obtain ⟨b, hb⟩ := h.exclusive.own n (by omega) (by rw [h.curCoroutineId_eq]; omega)
      cases b with
      | false => exact hb
      | true =>
          have hused : t.pool.inUse n = true := by
            rw [CoroutinePool.inUse, hb]
            rfl
          exact absurd (h.lt_poolSize n ((h.inUse_iff n).1 hused)) (lt_irrefl n)
  cases hown.symm.trans hslot
  cases hcor
  exact ⟨rfl, hkept.trans hown⟩

/-- So the slot of a connected client is not marked. -/
theorem Held.not_conserved {n k : ℕ} {fd : ℤ} {out : Unit} (h : Held n t)
    (hsound : ∀ client ∈ t.clients, client.Sound) (hfull : ¬ t.FindsSlot (.addClient fd))
    (hstep : (machine d).step t (.addClient fd) = some (t', out)) : ¬ t'.Conserved k := by
  rcases step_cases hsound hstep with ⟨_, pool, loopCor, heq, _, hpool, rfl⟩ |
    ⟨_, _, _, _, heq, _⟩
  swap
  · cases heq
  cases heq
  obtain ⟨hcor, hslot⟩ := h.grown hfull hpool
  intro hconserved
  have hused := (hconserved.slots n).2
    ⟨_, List.mem_append_right _ (List.mem_singleton_self _), hcor, by
      simp [ServedClient.IsClosed, TcpConnection.addClient, TcpConnection.new]⟩
  rw [CoroutinePool.mem_usedSlots, CoroutinePool.inUse, hslot] at hused
  cases hused

end Steps

section Runs

variable {n : ℕ} {t : IOThread} {ops : List IOOp} {outs : List Unit}

theorem accepted_of_run (hrun : (machine d).run (new n) ops = some (t, outs)) :
    Accepted t ops := by
  refine Machine.run_inputs (I := Accepted) (fun s is i s' o h hi => h.step hi) ?_ hrun
  exact ⟨List.forall_mem_nil _, rfl, List.nodup_nil, by simp [new]⟩

theorem held_of_run (hfree : (machine d).Meets FindsSlot (new n) ops)
    (hrun : (machine d).run (new n) ops = some (t, outs)) : Held n t := by
  refine (hfree.run_invariant (I := fun t => Held n t ∧ ∃ ops, Accepted t ops) ?_
    ⟨held_new n, [], accepted_of_run ((machine d).run_nil (new n))⟩ hrun).1
  rintro s op s' o ⟨hheld, ops, haccepted⟩ hok hstep
  exact ⟨hheld.step haccepted.sound hok hstep, _, haccepted.step hstep⟩

/-- As long as no client has closed and the coroutines come from the pool, everything is
in use by a connected client. -/
theorem conserved_of_run (hopen : ∀ op ∈ ops, ¬ op.Closes)
    (hfree : (machine d).Meets FindsSlot (new n) ops)
    (hrun : (machine d).run (new n) ops = some (t, outs)) :
    t.Conserved (peak d (new n) ops) := by
  have haccepted := accepted_of_run hrun
  refine (held_of_run hfree hrun).conserved haccepted (fun client hclient hclosed => ?_)
    (connected_le_peak hrun)
  obtain ⟨op, hop, hcloses⟩ := haccepted.closed_iff.1 ⟨client, hclient, hclosed⟩
  exact hopen op hop hcloses

theorem ConservedAlong.of_append {before after : List IOOp} {start : IOThread}
    (h : ConservedAlong d start (before ++ after)) : ConservedAlong d start before := by
  rintro front back u outs rfl
  exact h front (back ++ after) u outs (List.append_assoc ..)

/-- The first request that finds no free slot would leave a slot unmarked. -/
theorem ConservedAlong.findsSlot (h : ConservedAlong d (new n) ops)
    (hopen : ∀ op ∈ ops, ¬ op.Closes)
    (hrun : (machine d).run (new n) ops = some (t, outs)) :
    (machine d).Meets FindsSlot (new n) ops := by
  induction ops using List.reverseRecOn generalizing t outs with
  | nil => trivial
  | append_singleton ops op ih =>
      obtain ⟨u, os₁, os₂, hu, hlast, _⟩ :=
        (Machine.run_append_eq_some_iff _ _ ops [op] t outs).1 hrun
      obtain ⟨t', o, os₃, hstep, hnil, _⟩ := (Machine.run_cons_eq_some_iff _ u op [] t os₂).1 hlast
      cases hnil
      have hmeets := ih h.of_append (fun op hop => hopen op (List.mem_append_left _ hop)) hu
      refine (Machine.meets_append hu).2 ⟨hmeets, (Machine.meets_cons hstep).2 ⟨?_, trivial⟩⟩
      have hquiet : t.Quiet := by
        intro client hclient hclosed
        obtain ⟨op, hop, hcloses⟩ :=
          (accepted_of_run hrun).closed_iff.1 ⟨client, hclient, hclosed⟩
        exact absurd hcloses (hopen op hop)
      have hconserved := h _ [] t outs (List.append_nil _).symm hrun hquiet
      cases op with
      | serve i step => trivial
      | addClient fd =>
          by_contra hfull
          exact (held_of_run hmeets hu).not_conserved (accepted_of_run hu).sound hfull hstep
            hconserved

/-- The resources are conserved along a run exactly if, up to every state in which no
connection is in the middle of closing, no connection has closed and every client has
found a free slot. -/
theorem conservedAlong_iff (d : RpcDispatcher Method Message) (n : ℕ) (ops : List IOOp) :
    ConservedAlong d (new n) ops ↔
      ∀ before after u outs, ops = before ++ after →
        (machine d).run (new n) before = some (u, outs) → u.Quiet →
          (∀ op ∈ before, ¬ op.Closes) ∧ (machine d).Meets FindsSlot (new n) before := by
  constructor
  · rintro h before after u outs rfl hrun hquiet
    have hconserved := h before after u outs rfl hrun hquiet
    have haccepted := accepted_of_run hrun
    have hopen : ∀ op ∈ before, ¬ op.Closes := by
      intro op hop hcloses
      exact haccepted.not_conserved (haccepted.closed_iff.2 ⟨op, hop, hcloses⟩) hconserved
    exact ⟨hopen, h.of_append.findsSlot hopen hrun⟩
  · intro h before after u outs hops hrun hquiet
    obtain ⟨hopen, hfree⟩ := h before after u outs hops hrun hquiet
    exact conserved_of_run hopen hfree hrun

end Runs

/-- A client connects and closes. Its loop has returned, and its descriptor is open, its
slot is marked and its entry is there. -/
theorem not_conservedAlong_closed :
    ¬ ConservedAlong (⟨fun _ => none⟩ : RpcDispatcher Unit Bytes) (new 4)
      [.addClient 7, .serve 0 .enter, .serve 0 (.onRead [⟨.eof, false⟩]), .serve 0 (.excute 1),
        .serve 0 (.onWrite [])] := by
  intro h
  have hrun : ((machine (⟨fun _ => none⟩ : RpcDispatcher Unit Bytes)).run (new 4)
      [.addClient 7, .serve 0 .enter, .serve 0 (.onRead [⟨.eof, false⟩]), .serve 0 (.excute 1),
        .serve 0 (.onWrite [])]).map
        (fun r => (r.1.openFds, r.1.clients.map fun c => (c.place, c.connection.state))) =
      some ([7], [(.returned, .closed)]) := by decide +kernel
  rcases Option.map_eq_some_iff.1 hrun with ⟨⟨t, outs⟩, hrun, heq⟩
  obtain ⟨hfds, hclients⟩ := Prod.mk.inj heq
  have hall (client : ServedClient) (hclient : client ∈ t.clients) :
      (client.place, client.connection.state) = (.returned, .closed) :=
    List.mem_singleton.1 (hclients ▸ List.mem_map_of_mem hclient)
  have hconserved := h _ [] t outs (List.append_nil _).symm hrun
    fun client hclient _ => (Prod.mk.inj (hall client hclient)).1
  have hopen : (7 : ℤ) ∈ t.openFds := by
    change t.openFds = [7] at hfds
    rw [hfds]
    exact List.mem_singleton_self 7
  obtain ⟨client, hclient, _, hnot⟩ := (hconserved.descriptors 7).1 hopen
  exact hnot (Prod.mk.inj (hall client hclient)).2

end IOThread

end Rocket
