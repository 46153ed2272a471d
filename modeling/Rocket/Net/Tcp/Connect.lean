import Mathlib.Data.List.Range
import Rocket.Net.Tcp.TcpClient

/-!
# The attempts to connect

A call of a client calls the hooked `connect` until it has a result that ends the loop.
`connect_hook` yields when the connection is in progress, and calls `connect` again when it
is resumed; the timer of the call can fire meanwhile. Any other failure is returned at once.
A refused connection ends the call, but after any other `errno` the loop comes round again,
and if the failure stays, the thread never gets back to its event loop.
-/

namespace Rocket

open Foundation

/-- What the system call `connect` returns: 0, or -1 with an `errno`. -/
inductive SysConnect where
  | success
  | failure (errno : ℤ)
  deriving DecidableEq, Repr

/-- `EISCONN` -/
def eisconn : ℤ := 106

/-- `ETIMEDOUT` -/
def etimedout : ℤ := 110

/-- `ECONNREFUSED` -/
def econnrefused : ℤ := 111

/-- `EINPROGRESS` -/
def einprogress : ℤ := 115

def SysConnect.connectResult : SysConnect → ConnectResult
  | .success => .success
  | .failure errno => if errno = econnrefused then .refused else .failed

theorem SysConnect.connectResult_ne_failed_iff {r : SysConnect} :
    r.connectResult ≠ .failed ↔ r = .success ∨ r = .failure econnrefused := by
  cases r with
  | success => simp [connectResult]
  | failure errno =>
      by_cases h : errno = econnrefused <;> simp [connectResult, h]

/-- What happens in a call of `connect_hook`: the result of the first `connect`, and, if the
coroutine yields, whether the timer event of the call and the one of the hook have been run
meanwhile, and the result of the second `connect`. -/
structure ConnectAttempt where
  first : SysConnect
  overTime : Bool := false
  isTimeout : Bool := false
  second : SysConnect := .success
  deriving DecidableEq, Repr

namespace ConnectAttempt

/-- `connect_hook` -/
def connectHook (isMainCoroutine : Bool) (a : ConnectAttempt) : Hooked SysConnect :=
  if isMainCoroutine then { result := a.first }
  else
    match a.first with
    | .success => { result := .success }
    | .failure errno =>
        if errno ≠ einprogress then { result := .failure errno }
        else
          { result := match a.second with
              | .success => .success
              | .failure errno =>
                  if errno = eisconn then .success
                  else .failure (if a.isTimeout then etimedout else errno)
            overTime := a.overTime }

/-- The hooked `connect`, as the loop sees it. -/
def connect (isMainCoroutine : Bool) (a : ConnectAttempt) : Hooked ConnectResult where
  result := (a.connectHook isMainCoroutine).result.connectResult
  overTime := (a.connectHook isMainCoroutine).overTime

def Yields (isMainCoroutine : Bool) (a : ConnectAttempt) : Prop :=
  isMainCoroutine = false ∧ a.first = .failure einprogress

/-- The connection is made or refused, or the timer of the call fires while the coroutine has
yielded. -/
def Decides (isMainCoroutine : Bool) (a : ConnectAttempt) : Prop :=
  a.first = .success ∨ a.first = .failure econnrefused ∨
    a.Yields isMainCoroutine ∧
      (a.overTime = true ∨ a.second = .success ∨ a.second = .failure eisconn ∨
        a.second = .failure econnrefused ∧ a.isTimeout = false)

variable {isMainCoroutine : Bool} {a : ConnectAttempt}

theorem decides_iff : a.Decides isMainCoroutine ↔
    (a.connect isMainCoroutine).overTime = true ∨
      (a.connect isMainCoroutine).result ≠ .failed := by
  rw [Decides, Yields, connect, SysConnect.connectResult_ne_failed_iff, connectHook]
  cases isMainCoroutine with
  | true => simp
  | false =>
      cases hfirst : a.first with
      | success => simp
      | failure errno =>
          by_cases herrno : errno = einprogress
          · subst herrno
            cases hsecond : a.second with
            | success => simp
            | failure errno =>
                by_cases hconn : errno = eisconn
                · simp [hconn]
                · cases a.isTimeout <;> simp [hconn, einprogress, econnrefused, etimedout]
          · simp [herrno]

/-- The attempts that are made again without a yield: those that fail at once with another
`errno` than `ECONNREFUSED`. -/
theorem not_decides_and_not_yields_iff :
    ¬ a.Decides isMainCoroutine ∧ ¬ a.Yields isMainCoroutine ↔
      ∃ errno, a.first = .failure errno ∧ errno ≠ econnrefused ∧
        (isMainCoroutine = true ∨ errno ≠ einprogress) := by
  rw [Decides, Yields]
  cases a.first with
  | success => simp
  | failure errno =>
      cases isMainCoroutine <;> simp
      tauto

end ConnectAttempt

namespace ClientCall

variable {call call' : ClientCall} {results : List (Hooked ConnectResult)} {exit : ConnectExit}

theorem state_of_connectLoop (h : connectLoop results call = some (call', .connected)) :
    call'.client.connection.state = .connected := by
  induction results generalizing call with
  | nil =>
      rw [connectLoop] at h
      split_ifs at h with hstate
      cases h
      exact hstate
  | cons r results ih =>
      rw [connectLoop] at h
      split_ifs at h with hstate
      · cases h
        exact hstate
      · cases hr : r.result with
        | success =>
            simp only [hr] at h
            cases h
            rfl
        | refused =>
            simp only [hr] at h
            split_ifs at h <;> cases h
        | failed =>
            simp only [hr] at h
            split_ifs at h
            · cases h
            · exact ih h

/-- The loop ends when the connection has been there before, or with the first result that is
not a failure or comes after the timer has fired. -/
theorem exists_connectLoop_iff (hcall : call.isTimeout = false) :
    (∃ call' exit, connectLoop results call = some (call', exit)) ↔
      call.client.connection.state = .connected ∨
        ∃ r ∈ results, r.overTime = true ∨ r.result ≠ .failed := by
  induction results generalizing call with
  | nil =>
      rw [connectLoop]
      split_ifs with hstate <;> simp [hstate]
  | cons r results ih =>
      rw [connectLoop]
      split_ifs with hstate
      · simp [hstate]
      · rw [or_iff_right hstate]
        simp only [List.exists_mem_cons_iff]
        cases hr : r.result with
        | success => simp
        | refused => simp
        | failed =>
            cases hover : r.overTime with
            | true => simp [resume]
            | false =>
                have htimeout : (call.resume (call.client.connection.fire false) false).isTimeout =
                    false := by
                  rw [resume, hcall]
                  rfl
                have htail := (ih htimeout).trans (or_iff_right hstate)
                simpa [htimeout] using htail

end ClientCall

namespace TcpClient

variable {client : TcpClient} {isMainCoroutine : Bool} {attempts : ℕ → ConnectAttempt}

/-- The loop of a call ends after some of the attempts, and then the call goes on connected or
returns an error. -/
def ConnectEnds (client : TcpClient) (isMainCoroutine : Bool) (attempts : ℕ → ConnectAttempt) :
    Prop :=
  ∃ n call exit,
    ClientCall.connectLoop ((List.range n).map fun i => (attempts i).connect isMainCoroutine)
      client.startCall = some (call, exit) ∧
    match exit with
    | .connected => call.client.connection.state = .connected
    | .timeout => ∀ socket, (call.errDeal socket).2.rt ≠ 0
    | .refused => ∀ script, (call.connectRefused script).2.rt ≠ 0

theorem connectEnds_of_connectLoop {n : ℕ} {call : ClientCall} {exit : ClientCall.ConnectExit}
    (hloop : ClientCall.connectLoop
      ((List.range n).map fun i => (attempts i).connect isMainCoroutine) client.startCall =
        some (call, exit)) :
    client.ConnectEnds isMainCoroutine attempts := by
  refine ⟨n, call, exit, hloop, ?_⟩
  cases exit with
  | connected => exact ClientCall.state_of_connectLoop hloop
  | timeout =>
      intro socket
      rw [ClientCall.errDeal]
      split_ifs
      · exact (by decide : errorRpcCallTimeout ≠ 0)
      · exact (by decide : errorPeerClosed ≠ 0)
  | refused => exact fun _ => (by decide : errorPeerClosed ≠ 0)

/-- The loop comes no further than to the first attempt that decides. -/
theorem connectEnds_of_decides {n : ℕ} (h : (attempts n).Decides isMainCoroutine) :
    client.ConnectEnds isMainCoroutine attempts := by
  have hmem : (attempts n).connect isMainCoroutine ∈
      (List.range (n + 1)).map fun i => (attempts i).connect isMainCoroutine :=
    List.mem_map_of_mem (List.mem_range.2 (Nat.lt_succ_self n))
  obtain ⟨call, exit, hloop⟩ : ∃ call exit, ClientCall.connectLoop _ client.startCall =
      some (call, exit) :=
    (ClientCall.exists_connectLoop_iff rfl).2 (Or.inr ⟨_, hmem, ConnectAttempt.decides_iff.1 h⟩)
  exact connectEnds_of_connectLoop hloop

/-- The loop ends iff the connection has been there before, or one of the attempts decides. -/
theorem connectEnds_iff (client : TcpClient) (isMainCoroutine : Bool)
    (attempts : ℕ → ConnectAttempt) :
    client.ConnectEnds isMainCoroutine attempts ↔
      client.connection.state = .connected ∨ ∃ n, (attempts n).Decides isMainCoroutine := by
  constructor
  · rintro ⟨n, call, exit, hloop, -⟩
    refine ((ClientCall.exists_connectLoop_iff rfl).1 ⟨call, exit, hloop⟩).imp_right ?_
    rintro ⟨r, hr, hdecides⟩
    obtain ⟨i, -, rfl⟩ := List.mem_map.1 hr
    exact ⟨i, ConnectAttempt.decides_iff.2 hdecides⟩
  · rintro (hstate | ⟨n, hdecides⟩)
    · obtain ⟨call, exit, hloop⟩ : ∃ call exit, ClientCall.connectLoop [] client.startCall =
          some (call, exit) := (ClientCall.exists_connectLoop_iff rfl).2 (Or.inl hstate)
      exact connectEnds_of_connectLoop (n := 0) hloop
    · exact connectEnds_of_decides hdecides

/-- A network that cannot be reached is tried again and again: `ENETUNREACH` is 101. -/
theorem not_connectEnds_unreachable :
    ¬ (new (ascii "10.0.0.1:80") 3).ConnectEnds false fun _ => { first := .failure 101 } := by
  rintro ⟨n, call, exit, hloop, -⟩
  have hconnect : ConnectAttempt.connect false { first := .failure 101 } = ⟨.failed, false⟩ := by
    decide
  rcases (ClientCall.exists_connectLoop_iff rfl).1 ⟨call, exit, hloop⟩ with
    hstate | ⟨r, hr, hdecides⟩
  · exact absurd hstate (by decide)
  · obtain ⟨_, -, heq⟩ := List.mem_map.1 hr
    obtain rfl := hconnect.symm.trans heq
    exact absurd hdecides (by decide)

/-- When the timer fires for a coroutine that yields again and again, a loop that does not end
is one that from some time on does not yield. -/
theorem exists_forall_failure_of_not_connectEnds
    (hends : ¬ client.ConnectEnds isMainCoroutine attempts)
    (hfair : (∀ n, ∃ m, n ≤ m ∧ (attempts m).Yields isMainCoroutine) →
      ∃ m, (attempts m).Yields isMainCoroutine ∧ (attempts m).overTime = true) :
    ∃ n, ∀ m, n ≤ m → ∃ errno, (attempts m).first = .failure errno ∧ errno ≠ econnrefused ∧
      (isMainCoroutine = true ∨ errno ≠ einprogress) := by
  have hdecides (m : ℕ) : ¬ (attempts m).Decides isMainCoroutine :=
    fun h => hends (connectEnds_of_decides h)
  obtain ⟨n, hn⟩ : ∃ n, ∀ m, n ≤ m → ¬ (attempts m).Yields isMainCoroutine := by
    by_contra hyields
    obtain ⟨m, hm, htimer⟩ := hfair fun n => by
      by_contra hnone
      exact hyields ⟨n, fun m hm hm' => hnone ⟨m, hm, hm'⟩⟩
    exact hdecides m (Or.inr (Or.inr ⟨hm, Or.inl htimer⟩))
  exact ⟨n, fun m hm => ConnectAttempt.not_decides_and_not_yields_iff.1 ⟨hdecides m, hn m hm⟩⟩

end TcpClient

end Rocket
