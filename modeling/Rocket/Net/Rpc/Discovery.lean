import Rocket.Foundation.Machine
import Rocket.Net.Rpc.RpcRegistry
import Rocket.Net.Tcp.TcpServer

/-!
# Service discovery

Services register with the registry, clients ask it for addresses and cache the answers,
and calls pick a cached address at random. All addresses that are handed out have been
registered for the service, as long as there is one to choose from: for a service with
no cached address the upper bound of the random index is `-1`.
-/

namespace Rocket

open Foundation

/-- The registry, the server that caches, and the answers that clients have got, with the
names they have asked for. -/
structure Discovery where
  registry : RpcRegistry := {}
  server : TcpServer := {}
  answers : List (Bytes × List Bytes) := []

/-- What is done: `updateService` stores an answer that a client has got, and
`getServiceWithLoadBalance` comes with what the distribution returns. -/
inductive DiscoveryOp where
  | registerServer (name addr : Bytes)
  | getTargetAddr (name : Bytes)
  | updateService (answer : ℕ)
  | getServiceAllAddr (name : Bytes)
  | getServiceWithLoadBalance (name : Bytes) (randomIndex : Int32)
  deriving DecidableEq

namespace Discovery

/-- The machine, with the addresses that are handed out. -/
def machine : Machine Discovery DiscoveryOp (List Bytes) where
  step s
    | .registerServer name addr =>
        some ({ s with registry := s.registry.registerServer name addr }, [])
    | .getTargetAddr name =>
        let (response, registry) := s.registry.getTargetAddr name []
        some ({ s with registry := registry, answers := s.answers ++ [(name, response)] }, response)
    | .updateService answer => do
        let (name, addrs) ← s.answers[answer]?
        some ({ s with server := s.server.updateService name addrs }, [])
    | .getServiceAllAddr name =>
        let (addrs, server) := s.server.getServiceAllAddr name
        some ({ s with server := server }, addrs)
    | .getServiceWithLoadBalance name randomIndex =>
        if UniformMayReturn 0 (s.server.upperBound name) randomIndex.toInt then
          let (addr, server) := s.server.getServiceWithLoadBalance name randomIndex
          addr.map fun addr => ({ s with server := server }, [addr])
        else none

def registeredFor (name : Bytes) (ops : List DiscoveryOp) : List Bytes :=
  ops.flatMap fun
    | .registerServer name' addr => if name = name' then [addr] else []
    | _ => []

/-- What is expected of a service after the operations `ops`: it is answered with its
addresses, lookups do not change the answer, and load balancing picks one of them. -/
structure Discovers (s : Discovery) (ops : List DiscoveryOp) (name : Bytes) : Prop where
  answer : (s.registry.getTargetAddr name []).1 = registeredFor name ops
  stable : ∀ other, ((s.registry.getTargetAddr other []).2.getTargetAddr name []).1 =
    (s.registry.getTargetAddr name []).1
  balances : ∀ randomIndex : Int32,
    UniformMayReturn 0 (s.server.upperBound name) randomIndex.toInt →
      ∃ addr ∈ registeredFor name ops,
        (s.server.getServiceWithLoadBalance name randomIndex).1 = some addr

/-- What the steps of a run keep. -/
structure Registered (s : Discovery) (ops : List DiscoveryOp) : Prop where
  addrs_eq : ∀ name, s.registry.addrs name = registeredFor name ops
  answers_sub : ∀ p ∈ s.answers, p.2 ⊆ registeredFor p.1 ops
  cached_sub : ∀ name, s.server.cached name ⊆ registeredFor name ops

@[simp] theorem registeredFor_append (name : Bytes) (ops ops' : List DiscoveryOp) :
    registeredFor name (ops ++ ops') = registeredFor name ops ++ registeredFor name ops' :=
  List.flatMap_append

theorem registeredFor_registerServer (name name' addr : Bytes) :
    registeredFor name [.registerServer name' addr] = if name = name' then [addr] else [] :=
  List.append_nil _

section Run

variable {s s' : Discovery} {ops : List DiscoveryOp} {op : DiscoveryOp} {out : List Bytes}

theorem Registered.of_no_register (h : Registered s ops)
    (hnone : ∀ name, registeredFor name [op] = [])
    (haddrs : ∀ name, s'.registry.addrs name = s.registry.addrs name)
    (hanswers : ∀ p ∈ s'.answers, p.2 ⊆ registeredFor p.1 ops)
    (hcached : ∀ name, s'.server.cached name ⊆ registeredFor name ops) :
    Registered s' (ops ++ [op]) := by
  refine ⟨fun name => ?_, fun p hp => ?_, fun name => ?_⟩
  · rw [haddrs, h.addrs_eq, registeredFor_append, hnone, List.append_nil]
  · rw [registeredFor_append, hnone, List.append_nil]
    exact hanswers p hp
  · rw [registeredFor_append, hnone, List.append_nil]
    exact hcached name

theorem Registered.step (h : Registered s ops) (hstep : machine.step s op = some (s', out)) :
    Registered s' (ops ++ [op]) := by
  cases op with
  | registerServer name addr =>
      cases hstep
      refine ⟨fun other => ?_, fun p hp => ?_, fun other => ?_⟩
      · rw [RpcRegistry.addrs_registerServer, registeredFor_append, registeredFor_registerServer]
        split_ifs with hname
        · rw [hname, h.addrs_eq]
        · rw [List.append_nil, h.addrs_eq]
      · rw [registeredFor_append]
        exact List.subset_append_of_subset_left _ (h.answers_sub p hp)
      · rw [registeredFor_append]
        exact List.subset_append_of_subset_left _ (h.cached_sub other)
  | getTargetAddr name =>
      simp only [machine, Option.some.injEq, Prod.mk.injEq] at hstep
      obtain ⟨rfl, _⟩ := hstep
      refine h.of_no_register (fun _ => rfl) (s.registry.addrs_getTargetAddr name []) ?_
        h.cached_sub
      intro p hp
      rcases List.mem_append.1 hp with hp | hp
      · exact h.answers_sub p hp
      · rw [List.mem_singleton.1 hp, RpcRegistry.getTargetAddr_fst, List.nil_append, h.addrs_eq]
        exact List.Subset.refl _
  | updateService answer =>
      simp only [machine, Option.bind_eq_bind, Option.bind_eq_some_iff, Prod.exists,
        Option.some.injEq, Prod.mk.injEq] at hstep
      obtain ⟨name, addrs, hanswer, rfl, rfl⟩ := hstep
      refine h.of_no_register (fun _ => rfl) (fun _ => rfl) h.answers_sub ?_
      intro other
      rw [TcpServer.cached_updateService]
      split_ifs with hname
      · rw [hname]
        exact h.answers_sub _ (List.mem_of_getElem? hanswer)
      · exact h.cached_sub other
  | getServiceAllAddr name =>
      simp only [machine, Option.some.injEq, Prod.mk.injEq] at hstep
      obtain ⟨rfl, _⟩ := hstep
      refine h.of_no_register (fun _ => rfl) (fun _ => rfl) h.answers_sub ?_
      intro other
      rw [TcpServer.cached_getServiceAllAddr]
      exact h.cached_sub other
  | getServiceWithLoadBalance name randomIndex =>
      simp only [machine, Option.ite_none_right_eq_some, Option.map_eq_some_iff,
        Prod.mk.injEq] at hstep
      obtain ⟨_, addr, _, rfl, _⟩ := hstep
      refine h.of_no_register (fun _ => rfl) (fun _ => rfl) h.answers_sub ?_
      intro other
      rw [TcpServer.cached_getServiceWithLoadBalance]
      exact h.cached_sub other

theorem registered_of_run {outs : List (List Bytes)} (hrun : machine.run {} ops = some (s, outs)) :
    Registered s ops := by
  have hstart : Registered {} [] :=
    ⟨fun _ => rfl, List.forall_mem_nil _, fun _ => List.Subset.refl _⟩
  exact Machine.run_inputs (fun _ _ _ _ _ h hstep => h.step hstep) hstart hrun

/-- The random index lies in the cached list, whatever it is, if the upper bound is not
negative; otherwise it may be any integer. -/
theorem balances_iff (server : TcpServer) (name : Bytes) :
    (∀ randomIndex : Int32, UniformMayReturn 0 (server.upperBound name) randomIndex.toInt →
      ∃ addr, readCell (server.cached name) randomIndex.toInt = some addr) ↔
        0 ≤ wrap ((server.cached name).length - 1) := by
  rw [server.upperBound_eq]
  constructor
  · intro h
    by_contra hneg
    obtain ⟨addr, hread⟩ := h (-1) fun hle => absurd hle hneg
    have hnonneg := ((readCell_eq_some_iff _ _ _).1 hread).1
    exact absurd hnonneg (by decide)
  · intro hbound randomIndex hmay
    obtain ⟨hlo, hhi⟩ := hmay hbound
    have hpos : 0 < (server.cached name).length := by
      by_contra hempty
      rw [Nat.eq_zero_of_not_pos hempty] at hbound
      exact absurd hbound (by decide)
    have hle := wrap_le (x := (server.cached name).length - 1) (by omega)
    have hlt : randomIndex.toInt.toNat < (server.cached name).length := by omega
    refine ⟨(server.cached name).get ⟨_, hlt⟩, ?_⟩
    rw [readCell_eq_some_iff]
    exact ⟨hlo, List.getElem?_eq_getElem hlt⟩

/-- After every run, a service is discovered as expected if and only if the size of its
cached list, less one, is not negative as an `int`. -/
theorem discovers_iff {outs : List (List Bytes)} (hrun : machine.run {} ops = some (s, outs))
    (name : Bytes) : Discovers s ops name ↔ 0 ≤ wrap ((s.server.cached name).length - 1) := by
  have hregistered := registered_of_run hrun
  rw [← balances_iff s.server name]
  constructor
  · intro h randomIndex hmay
    obtain ⟨addr, _, heq⟩ := h.balances randomIndex hmay
    rw [TcpServer.getServiceWithLoadBalance_fst] at heq
    exact ⟨addr, heq⟩
  · intro h
    refine ⟨?_, fun other => ?_, fun randomIndex hmay => ?_⟩
    · rw [RpcRegistry.getTargetAddr_fst, List.nil_append, hregistered.addrs_eq]
    · rw [RpcRegistry.getTargetAddr_fst, RpcRegistry.getTargetAddr_fst,
        RpcRegistry.addrs_getTargetAddr]
    · obtain ⟨addr, hread⟩ := h randomIndex hmay
      have hmem := List.mem_of_getElem? ((readCell_eq_some_iff _ _ _).1 hread).2
      refine ⟨addr, hregistered.cached_sub name hmem, ?_⟩
      rw [TcpServer.getServiceWithLoadBalance_fst, hread]

end Run

/-- A service that has registered two addresses, and whose answer has been cached. -/
theorem discovers_iff_order :
    let first := ascii "127.0.0.1:8080"
    let second := ascii "127.0.0.1:8081"
    let ops : List DiscoveryOp := [.getTargetAddr (ascii "Order"),
      .registerServer (ascii "Order") first, .registerServer (ascii "Order") second,
      .getTargetAddr (ascii "Order"), .updateService 1,
      .getServiceWithLoadBalance (ascii "Order") 1]
    ∃ s, machine.run {} ops = some (s, [[], [], [], [first, second], [], [second]]) ∧
      Discovers s ops (ascii "Order") := by
  intro first second ops
  have houts : (machine.run {} ops).map (fun r => (r.2, r.1.server.cached (ascii "Order"))) =
      some ([[], [], [], [first, second], [], [second]], [first, second]) := by decide
  rcases Option.map_eq_some_iff.1 houts with ⟨⟨s, outs⟩, hrun, heq⟩
  obtain ⟨rfl, hcached⟩ := Prod.mk.inj heq
  exact ⟨s, hrun, (discovers_iff hrun _).2 (by rw [hcached]; decide)⟩

/-- A service that has never been cached: the vector has no element, and the distribution
with the bounds `0` and `-1` may return anything. -/
theorem not_discovers_uncached :
    machine.run {} [] = some ({}, []) ∧
      UniformMayReturn 0 (TcpServer.upperBound {} (ascii "Order")) (0 : Int32).toInt ∧
      (TcpServer.getServiceWithLoadBalance {} (ascii "Order") 0).1 = none ∧
      ¬ Discovers {} [] (ascii "Order") := by
  refine ⟨rfl, by decide, by decide, fun h => ?_⟩
  obtain ⟨addr, hmem, _⟩ := h.balances 0 (by decide)
  cases hmem

end Discovery

end Rocket
