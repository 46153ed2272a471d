import Rocket.Net.FdEventGroup
import Rocket.Net.IOThread

/-!
# onAccept

The coroutine of the server accepts one descriptor after the other. It counts a client and
hands the descriptor to the IO thread whose turn it is, as a task of the thread's event
loop; the task makes the connection, which asks the group of the `FdEvent`s for its own.

What `accept` returns goes all this way without a test. So the server does what it should
exactly as long as no `accept` fails.

A call of the hooked `accept` is given by what `accept` returns the first time, and what it
returns when the coroutine goes on, if it has to wait. The addresses are left out.
-/

namespace Rocket

open Foundation

/-- `accept_hook`. A first result that is not positive is taken for a failure. -/
def acceptHook (first second : Int32) : ℤ := if 0 < first.toInt then first.toInt else second.toInt

/-- `IOThreadGroup`: the number of its threads, and `m_index`. -/
structure IOThreadGroup where
  size : ℕ
  index : ℤ := 0
  deriving DecidableEq, Repr

/-- `IOThreadGroup::getIOThread`, with the number of the thread. -/
def IOThreadGroup.getIOThread (g : IOThreadGroup) : Option (IOThreadGroup × ℕ) :=
  let index := if g.index = g.size ∨ g.index = -1 then 0 else g.index
  if 0 ≤ index ∧ index < g.size then some ({ g with index := index + 1 }, index.toNat) else none

namespace IOThreadGroup

def Turn (g : IOThreadGroup) (k : ℕ) : Prop :=
  g.index = (k % g.size : ℕ) ∨ g.index = g.size ∧ k % g.size = 0

theorem Turn.getIOThread {g : IOThreadGroup} {k : ℕ} (h : g.Turn k) (hsize : 0 < g.size) :
    ∃ g', g.getIOThread = some (g', k % g.size) ∧ g'.size = g.size ∧ g'.Turn (k + 1) := by
  have hlt := Nat.mod_lt k hsize
  have hindex : (if g.index = g.size ∨ g.index = -1 then 0 else g.index) = (k % g.size : ℕ) := by
    rcases h with heq | ⟨heq, hzero⟩
    · rw [if_neg (by omega), heq]
    · rw [if_pos (Or.inl heq), hzero]
      rfl
  refine ⟨{ g with index := (k % g.size : ℕ) + 1 }, ?_, rfl, ?_⟩
  · rw [IOThreadGroup.getIOThread, hindex]
    exact if_pos ⟨by omega, by omega⟩
  · unfold Turn
    dsimp only
    rw [Nat.add_mod_eq_ite]
    by_cases hone : g.size = 1
    · exact Or.inr ⟨by simp [hone, Nat.mod_one], by simp [hone, Nat.mod_one]⟩
    · rw [Nat.mod_eq_of_lt (show 1 < g.size by omega)]
      split_ifs <;> omega

end IOThreadGroup

/-- `TcpServer` with its IO threads: the threads by their numbers, the tasks that wait in
their event loops, and the one group of events. `m_client_counts` is an `int` that goes up one
by one; its overflow behind 2^31 - 1 is left out. -/
structure AcceptRun where
  clientCounts : ℕ := 0
  ioThreads : IOThreadGroup
  threads : ℕ → IOThread
  tasks : ℕ → List ℤ := fun _ => []
  fdGroup : FdEventGroup

/-- A round of the loop of `onAccept`, or the next task of a thread. -/
inductive AcceptOp where
  | onAccept (first second : Int32)
  | runTask (thread : ℕ)
  deriving DecidableEq, Repr

/-- The descriptor that a task has been made for, or with which `addClient` has been
called. -/
inductive AcceptOutput where
  | submitted (thread : ℕ) (fd : ℤ)
  | added (thread : ℕ) (fd : ℤ)
  deriving DecidableEq, Repr

namespace AcceptRun

/-- A server with `size` threads, and pools of `poolSize` coroutines. -/
def new (size poolSize : ℕ) : AcceptRun where
  ioThreads := ⟨size, 0⟩
  threads _ := .new poolSize
  fdGroup := .new 128

/-- The task of a client. The constructor of `TcpConnection` asks for its event first. -/
def addClient (s : AcceptRun) (thread : ℕ) (fd : ℤ) : Option AcceptRun := do
  let (fdGroup, _) ← s.fdGroup.getFdEvent fd
  let ioThread ← (s.threads thread).addClient fd
  some { s with threads := Function.update s.threads thread ioThread, fdGroup := fdGroup }

def machine : Machine AcceptRun AcceptOp AcceptOutput where
  step s
    | .onAccept first second => do
        let clientFd := acceptHook first second
        let (ioThreads, thread) ← s.ioThreads.getIOThread
        some ({ s with
          clientCounts := s.clientCounts + 1
          ioThreads := ioThreads
          tasks := Function.update s.tasks thread (s.tasks thread ++ [clientFd]) },
          .submitted thread clientFd)
    | .runTask thread =>
        match s.tasks thread with
        | [] => none
        | fd :: rest =>
            ({ s with tasks := Function.update s.tasks thread rest }.addClient thread fd).map
              fun s' => (s', .added thread fd)

/-- What the hooked `accept` has returned. -/
def results (ops : List AcceptOp) : List ℤ :=
  ops.filterMap fun
    | .onAccept first second => some (acceptHook first second)
    | .runTask _ => none

def valid (ops : List AcceptOp) : List ℤ := (results ops).filter (0 ≤ ·)

/-- What is dealt out to the thread `i` of `n` threads in turn. -/
def dealt (n i : ℕ) (fds : List ℤ) : List ℤ :=
  (fds.zipIdx.filter fun p => p.2 % n = i).map Prod.fst

/-- The descriptors with which `addClient` has been called on a thread. -/
def added (thread : ℕ) (outs : List AcceptOutput) : List ℤ :=
  outs.filterMap fun
    | .added i fd => if i = thread then some fd else none
    | .submitted _ _ => none

/-- Exactly the valid descriptors are handed over, each once, in order, and to the threads
in turn; the server counts them; and no other descriptor gets to the group of events, which
indexes inside its vector. -/
structure Admits (s : AcceptRun) (ops : List AcceptOp) (outs : List AcceptOutput) : Prop where
  /-- Those that have been handed to `addClient`, and those whose tasks wait. -/
  handed : ∀ i, added i outs ++ s.tasks i = dealt s.ioThreads.size i (valid ops)
  counts_eq : s.clientCounts = (valid ops).length
  nonneg : ∀ i, ∀ fd ∈ added i outs, 0 ≤ fd
  inside : ∀ i, ∀ fd ∈ s.tasks i, 0 ≤ fd ∧ (s.fdGroup.getFdEvent fd).isSome

/-- `accept` returns a descriptor, for which the group of events has a place or can grow. -/
def Accepts (s : AcceptRun) : AcceptOp → Prop
  | .onAccept first second =>
      0 ≤ acceptHook first second ∧
        (acceptHook first second < s.fdGroup.fdGroup.length ∨
          acceptHook first second * 3 < 2 ^ 32)
  | .runTask _ => True

instance (s : AcceptRun) : ∀ op, Decidable (s.Accepts op)
  | .onAccept _ _ => inferInstanceAs (Decidable (_ ∧ _))
  | .runTask _ => isTrue trivial

theorem dealt_append_singleton (n i : ℕ) (fds : List ℤ) (fd : ℤ) :
    dealt n i (fds ++ [fd]) = dealt n i fds ++ if fds.length % n = i then [fd] else [] := by
  rw [dealt, List.zipIdx_append, List.filter_append, List.map_append, ← dealt]
  congr 1
  by_cases hturn : fds.length % n = i <;> simp [hturn]

theorem results_append (ops ops' : List AcceptOp) :
    results (ops ++ ops') = results ops ++ results ops' :=
  List.filterMap_append

theorem added_append (i : ℕ) (outs outs' : List AcceptOutput) :
    added i (outs ++ outs') = added i outs ++ added i outs' :=
  List.filterMap_append

theorem mem_of_mem_dealt {n i : ℕ} {fds : List ℤ} {fd : ℤ} (h : fd ∈ dealt n i fds) :
    fd ∈ fds := by
  obtain ⟨p, hp, rfl⟩ := List.mem_map.1 h
  exact List.fst_mem_of_mem_zipIdx (List.mem_of_mem_filter hp)

/-- What holds after a run in which every `accept` has returned a descriptor. -/
structure Deals (n : ℕ) (s : AcceptRun) (ops : List AcceptOp) (outs : List AcceptOutput) :
    Prop where
  size_eq : s.ioThreads.size = n
  turn : s.ioThreads.Turn (results ops).length
  handed : ∀ i, added i outs ++ s.tasks i = dealt n i (results ops)
  counts_eq : s.clientCounts = (results ops).length
  nonneg : ∀ fd ∈ results ops, 0 ≤ fd
  group : ∃ m, s.fdGroup = .filled m ∧ 128 ≤ m ∧ m < 2 ^ 31 ∧
    ∀ i, ∀ fd ∈ s.tasks i, fd < 2 ^ 31 ∧ (fd < m ∨ fd * 3 < 2 ^ 32)

namespace Deals

variable {n : ℕ} {s : AcceptRun} {ops : List AcceptOp} {outs : List AcceptOutput}

theorem valid_eq (h : Deals n s ops outs) : valid ops = results ops :=
  List.filter_eq_self.2 fun fd hfd => decide_eq_true (h.nonneg fd hfd)

theorem nonneg_of_mem (h : Deals n s ops outs) {i : ℕ} {fd : ℤ}
    (hfd : fd ∈ added i outs ++ s.tasks i) : 0 ≤ fd :=
  h.nonneg fd (mem_of_mem_dealt (h.handed i ▸ hfd))

theorem admits (h : Deals n s ops outs) : Admits s ops outs := by
  refine ⟨fun i => ?_, ?_, fun i fd hfd => ?_, fun i fd hfd => ?_⟩
  · rw [h.valid_eq, h.size_eq]
    exact h.handed i
  · rw [h.valid_eq]
    exact h.counts_eq
  · exact h.nonneg_of_mem (List.mem_append_left _ hfd)
  · obtain ⟨m, hgroup, hpos, hm, hfits⟩ := h.group
    obtain ⟨hlt, hfit⟩ := hfits i fd hfd
    have hnonneg := h.nonneg_of_mem (List.mem_append_right _ hfd)
    rw [hgroup]
    exact ⟨hnonneg, (FdEventGroup.isSome_getFdEvent_iff (by omega) hm (by omega) hlt).2
      ⟨hnonneg, hfit⟩⟩

end Deals

theorem deals_new (n poolSize : ℕ) : Deals n (new n poolSize) [] [] where
  size_eq := rfl
  turn := Or.inl (congrArg Nat.cast (Nat.zero_mod n)).symm
  handed _ := rfl
  counts_eq := rfl
  nonneg := List.forall_mem_nil _
  group := ⟨128, FdEventGroup.new_eq_filled 128, le_rfl, by norm_num,
    fun _ => List.forall_mem_nil _⟩

section Step

variable {n : ℕ} {s s' : AcceptRun} {ops : List AcceptOp} {outs : List AcceptOutput}
  {o : AcceptOutput}

/-- A round of `onAccept` makes a task of the thread whose turn it is, whatever `accept`
has returned. -/
theorem Deals.step_onAccept (h : Deals n s ops outs) (hn : 0 < n) (first second : Int32) :
    ∃ ioThreads : IOThreadGroup, ioThreads.size = n ∧
      ioThreads.Turn ((results ops).length + 1) ∧
      machine.step s (.onAccept first second) =
        some ({ s with
          clientCounts := s.clientCounts + 1
          ioThreads := ioThreads
          tasks := Function.update s.tasks ((results ops).length % n)
            (s.tasks ((results ops).length % n) ++ [acceptHook first second]) },
          .submitted ((results ops).length % n) (acceptHook first second)) := by
  obtain ⟨ioThreads, hget, hsize, hturn⟩ := h.turn.getIOThread (h.size_eq ▸ hn)
  rw [h.size_eq] at hget hsize
  exact ⟨ioThreads, hsize, hturn, by simp [machine, hget]⟩

theorem results_onAccept (ops : List AcceptOp) (first second : Int32) :
    results (ops ++ [.onAccept first second]) = results ops ++ [acceptHook first second] :=
  results_append ops _

theorem results_runTask (ops : List AcceptOp) (thread : ℕ) :
    results (ops ++ [.runTask thread]) = results ops := by
  rw [results_append]
  exact List.append_nil _

theorem acceptHook_lt (first second : Int32) : acceptHook first second < 2 ^ 31 := by
  unfold acceptHook
  split_ifs
  · exact first.toInt_lt
  · exact second.toInt_lt

theorem Deals.onAccept (h : Deals n s ops outs) (hn : 0 < n) {first second : Int32}
    (hok : s.Accepts (.onAccept first second))
    (hstep : machine.step s (.onAccept first second) = some (s', o)) :
    Deals n s' (ops ++ [.onAccept first second]) (outs ++ [o]) := by
  obtain ⟨ioThreads, hsize, hturn, heq⟩ := h.step_onAccept hn first second
  cases heq.symm.trans hstep
  obtain ⟨hnonneg, hplace⟩ := hok
  have hadded (i : ℕ) : added i (outs ++ [.submitted ((results ops).length % n)
      (acceptHook first second)]) = added i outs := by
    rw [added_append]
    exact List.append_nil _
  refine ⟨hsize, ?_, fun i => ?_, ?_, ?_, ?_⟩
  · rwa [results_onAccept, List.length_append]
  · rw [hadded, results_onAccept, dealt_append_singleton, ← h.handed i, List.append_assoc]
    congr 1
    by_cases hi : (results ops).length % n = i
    · rw [if_pos hi, hi]
      exact Function.update_self ..
    · rw [if_neg hi, List.append_nil]
      exact Function.update_of_ne (Ne.symm hi) ..
  · rw [results_onAccept, List.length_append, ← h.counts_eq]
    rfl
  · rw [results_onAccept, List.forall_mem_append, List.forall_mem_singleton]
    exact ⟨h.nonneg, hnonneg⟩
  · obtain ⟨m, hgroup, hpos, hm, hfits⟩ := h.group
    rw [hgroup, FdEventGroup.length_fdGroup_filled] at hplace
    refine ⟨m, hgroup, hpos, hm, ?_⟩
    rw [Function.forall_update_iff s.tasks
      fun _ fds => ∀ fd ∈ fds, fd < 2 ^ 31 ∧ (fd < m ∨ fd * 3 < 2 ^ 32)]
    refine ⟨?_, fun i _ => hfits i⟩
    rw [List.forall_mem_append, List.forall_mem_singleton]
    exact ⟨hfits _, acceptHook_lt first second, hplace⟩

theorem exists_of_runTask {thread : ℕ} (hstep : machine.step s (.runTask thread) = some (s', o)) :
    ∃ fd rest fdGroup event threads, s.tasks thread = fd :: rest ∧ o = .added thread fd ∧
      s.fdGroup.getFdEvent fd = some (fdGroup, event) ∧
      s' = { s with
        tasks := Function.update s.tasks thread rest
        threads := threads
        fdGroup := fdGroup } := by
  cases htasks : s.tasks thread with
  | nil => simp [machine, htasks] at hstep
  | cons fd rest =>
    simp only [machine, htasks, addClient, Option.map_eq_some_iff, Option.bind_eq_bind,
      Option.bind_eq_some_iff, Prod.exists, Prod.mk.injEq] at hstep
    obtain ⟨_, ⟨fdGroup, event, hget, ioThread, -, hs⟩, rfl, rfl⟩ := hstep
    cases hs
    exact ⟨fd, rest, fdGroup, event, _, rfl, rfl, hget, rfl⟩

/-- A task takes the first of the descriptors that wait, and leaves a place for the
others. -/
theorem Deals.runTask (h : Deals n s ops outs) {thread : ℕ}
    (hstep : machine.step s (.runTask thread) = some (s', o)) :
    Deals n s' (ops ++ [.runTask thread]) (outs ++ [o]) := by
  obtain ⟨fd, rest, fdGroup, event, threads, htasks, rfl, hget, rfl⟩ := exists_of_runTask hstep
  obtain ⟨m, hgroup, hpos, hm, hfits⟩ := h.group
  have hmem : fd ∈ s.tasks thread := htasks ▸ List.mem_cons_self
  have hnonneg := h.nonneg_of_mem (List.mem_append_right _ hmem)
  rw [hgroup] at hget
  obtain ⟨m', rfl, hle, hm'⟩ :=
    FdEventGroup.filled_of_getFdEvent (by omega) hm (by omega) (hfits thread fd hmem).1 hget
  refine ⟨h.size_eq, ?_, fun i => ?_, ?_, ?_, m', rfl, by omega, hm', ?_⟩
  · rw [results_runTask]
    exact h.turn
  · rw [results_runTask, ← h.handed i, added_append]
    by_cases hi : thread = i
    · subst hi
      simp [added, htasks]
    · simp [added, hi, Function.update_of_ne (Ne.symm hi)]
  · rw [results_runTask]
    exact h.counts_eq
  · rw [results_runTask]
    exact h.nonneg
  · have hfits' (i : ℕ) : ∀ fd ∈ s.tasks i, fd < 2 ^ 31 ∧ (fd < m' ∨ fd * 3 < 2 ^ 32) := by
      intro fd hfd
      obtain ⟨hlt, hfit⟩ := hfits i fd hfd
      exact ⟨hlt, hfit.imp_left fun hin => by omega⟩
    rw [Function.forall_update_iff s.tasks
      fun _ fds => ∀ fd ∈ fds, fd < 2 ^ 31 ∧ (fd < m' ∨ fd * 3 < 2 ^ 32)]
    exact ⟨fun fd hfd => hfits' thread fd (htasks ▸ List.mem_cons_of_mem _ hfd),
      fun i _ => hfits' i⟩

/-- A result that is no descriptor is handed on like any other. -/
theorem Deals.accepts (h : Deals n s ops outs) (hn : 0 < n) {first second : Int32}
    (hadmits : ∀ t o, machine.step s (.onAccept first second) = some (t, o) →
      Admits t (ops ++ [.onAccept first second]) (outs ++ [o])) :
    s.Accepts (.onAccept first second) := by
  obtain ⟨ioThreads, -, -, heq⟩ := h.step_onAccept hn first second
  have hmem : acceptHook first second ∈ Function.update s.tasks ((results ops).length % n)
      (s.tasks ((results ops).length % n) ++ [acceptHook first second])
      ((results ops).length % n) := by
    rw [Function.update_self]
    exact List.mem_append_right _ (List.mem_singleton_self _)
  obtain ⟨hnonneg, hsome⟩ := (hadmits _ _ heq).inside _ _ hmem
  obtain ⟨m, hgroup, hpos, hm, -⟩ := h.group
  change (s.fdGroup.getFdEvent _).isSome at hsome
  rw [hgroup, FdEventGroup.isSome_getFdEvent_iff (by omega) hm (by omega)
    (acceptHook_lt first second)] at hsome
  refine ⟨hnonneg, ?_⟩
  rw [hgroup, FdEventGroup.length_fdGroup_filled]
  exact hsome.2

end Step

/-- The server hands over exactly what has been accepted as long as every `accept` returns
a descriptor, and no longer. -/
theorem admits_iff_accepts {n : ℕ} (hn : 0 < n) (poolSize : ℕ) (ops : List AcceptOp) :
    machine.Along Admits (new n poolSize) ops ↔ machine.Meets Accepts (new n poolSize) ops := by
  refine Machine.along_iff_meets (I := Deals n) (fun t is os h => h.admits) ?_ ?_
    (deals_new n poolSize)
  · rintro t is os (⟨first, second⟩ | thread) h
    · refine ⟨fun hok t' o hstep => (h.onAccept hn hok hstep).admits, h.accepts hn⟩
    · exact iff_of_true trivial fun t' o hstep => (h.runTask hstep).admits
  · rintro t is os (⟨first, second⟩ | thread) t' o h hok hstep
    · exact h.onAccept hn hok hstep
    · exact h.runTask hstep

/-- Three clients on two threads. -/
theorem admits_iff_accepts_three :
    machine.Along Admits (new 2 1) [.onAccept 9 0, .onAccept (-1) 10, .runTask 0, .onAccept 11 0] :=
  (admits_iff_accepts (by norm_num) 1 _).2 (by decide +kernel)

/-- A connection that has been aborted before `accept` is called again: the failure is
counted as a client, and the task of its thread asks for the event of the descriptor -1. -/
theorem not_admits_aborted : ¬ machine.Along Admits (new 1 1) [.onAccept (-1) (-1)] := by
  intro h
  exact absurd (h [.onAccept (-1) (-1)] [] _ _ rfl rfl).counts_eq (by decide)

end AcceptRun

end Rocket
