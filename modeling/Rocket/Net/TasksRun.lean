import Rocket.Foundation.Execution
import Rocket.Net.LoopRounds

/-!
# Every task is run

A round of the loop takes all tasks that were in the queue when it began. So if the loop goes on
from one round to the next, every task that has been submitted is taken, unless somebody stops
the loop. It goes on if its thread is scheduled, if the tasks end, and if `epoll_wait` returns,
which it does after 10 s at the latest. So a wakeup that is missing delays a task, but does not
lose it.
-/

namespace Rocket

open Foundation Machine

namespace EventLoop

variable {α τ : Type}

/-- The loop goes on by itself, when it is not in a task. -/
def GoesOn (s : EventLoop α τ) : LoopOp α τ → Prop
  | .loop => ∀ task tempTasks, s.place ≠ .running task tempTasks
  | .call _ _ | .wakeup _ | .epollWait _ | .readWakeup _ => False

/-- The loop is in a task, or in `epoll_wait`. -/
def Busy (s : EventLoop α τ) : Prop :=
  s.place = .waiting ∨ ∃ task tempTasks, s.place = .running task tempTasks

variable [DecidableEq τ] {s s' : EventLoop α τ} {op : LoopOp α τ} {out : Unit}

/-- The tasks end, and `epoll_wait` returns. -/
def Returns (e : Execution (machine (α := α) (τ := τ))) : Prop :=
  ∀ n, (e.state n).Busy → ∃ m, n ≤ m ∧ (e.state m).place ≠ (e.state n).place

theorem writing_none_call (s : EventLoop α τ) (t : τ) (call : LoopCall α) :
    (s.call (some t) call).writing none = s.writing none := by
  have hset (s : EventLoop α τ) (b : Bool) :
      (s.setWriting (some t) b).writing none = s.writing none :=
    Function.update_of_ne (Option.some_ne_none t).symm b s.writing
  have hadd (callback : LoopCallback α) (isWakeUp : Bool) :
      (s.addTask (some t) callback isWakeUp).writing none = s.writing none := by
    cases isWakeUp with
    | true => exact hset _ true
    | false => rfl
  cases call with
  | addTask callback isWakeUp => exact hadd callback isWakeUp
  | addCoroutine cor isWakeUp => exact hadd _ isWakeUp
  | addEpollEvent event | deleteEpollEvent event => exact hadd _ true
  | onAccept clientFd => exact hadd _ false
  | stop => exact hset _ true

theorem running_of_step
    (h : s.writing none = true → ∃ task tempTasks, s.place = .running task tempTasks)
    (hstep : machine.step s op = some (s', out)) (hwriting : s'.writing none = true) :
    ∃ task tempTasks, s'.place = .running task tempTasks := by
  cases op with
  | call caller call =>
      obtain ⟨hcallable, heq⟩ := Option.ite_none_right_eq_some.1 hstep
      cases heq
      rw [(s.grows_call caller call).place_eq]
      cases caller with
      | some t => exact h (s.writing_none_call t call ▸ hwriting)
      | none =>
          cases hplace : s.place with
          | running task tempTasks => exact ⟨task, tempTasks, rfl⟩
          | _ => simp [callable, hplace] at hcallable
  | wakeup caller =>
      obtain ⟨hcaller, heq⟩ := Option.ite_none_right_eq_some.1 hstep
      cases heq
      refine h ?_
      by_cases hnone : caller = none
      · exact hnone ▸ hcaller
      · change Function.update s.writing caller false none = true at hwriting
        rwa [Function.update_of_ne (Ne.symm hnone)] at hwriting
  | loop | epollWait | readWakeup =>
      -- The loop does not go on while it has something to write.
      obtain ⟨hnone, -⟩ := Option.ite_none_left_eq_some.1 hstep
      have hsame : s'.writing = s.writing := by
        cases stepped_of_step hstep <;> rfl
      exact absurd (hsame ▸ hwriting) hnone

/-- Outside of tasks and `epoll_wait`, only the loop itself moves the loop. -/
theorem place_of_step (hbusy : ¬ s.Busy) (hop : op ≠ .loop)
    (hstep : machine.step s op = some (s', out)) : s'.place = s.place := by
  cases stepped_of_step hstep with
  | call caller call => exact (s.grows_call caller call).place_eq
  | wakeup => rfl
  | epollWait events hplace => exact absurd (Or.inl hplace) hbusy
  | readEmpty again tempTasks hplace | readWakeup again tempTasks hplace =>
      exact absurd (Or.inr ⟨_, _, hplace⟩) hbusy
  | head | swap | wait | take | finish | dispatched | dispatch => exact absurd rfl hop

section Execution

variable {e : Execution (machine (α := α) (τ := τ))} {n : ℕ}

/-- What holds of a loop that nobody stops. -/
structure Going (s : EventLoop α τ) : Prop where
  holds : ∃ q, Holds q s
  writing : s.writing none = true → ∃ task tempTasks, s.place = .running task tempTasks
  exited : s.place ≠ .exited

theorem Going.step (h : s.Going) (hstep : machine.step s op = some (s', out))
    (hstop : s'.stopFlag = false) : s'.Going := by
  obtain ⟨q, hq⟩ := h.holds
  obtain ⟨q', hq', -⟩ := hq.step hstep
  refine ⟨⟨q', hq'⟩, running_of_step h.writing hstep, fun hexited => ?_⟩
  have hstopped := stopFlag_of_exited (fun h' => absurd h' h.exited) hstep hexited
  rw [hstop] at hstopped
  cases hstopped

omit [DecidableEq τ] in
theorem isSome_loop (hbusy : ¬ s.Busy) (hexited : s.place ≠ .exited) : s.loop.isSome = true := by
  cases hplace : s.place with
  | head | checked => simp [loop, hplace]
  | draining tempTasks | dispatching callbacks =>
      first | cases tempTasks | cases callbacks
      · simp [loop, hplace]
      · simp [loop, hplace]
  | running task tempTasks => exact absurd (Or.inr ⟨task, tempTasks, hplace⟩) hbusy
  | waiting => exact absurd (Or.inl hplace) hbusy
  | exited => exact absurd hplace hexited

variable (hgoing : ∀ m, (e.state m).Going)

include hgoing

/-- Outside of tasks and `epoll_wait`, the loop takes its next step. -/
theorem exists_loop (hfair : e.WeaklyFair GoesOn) (hbusy : ¬ (e.state n).Busy) :
    ∃ m, n ≤ m ∧ (e.state m).place = (e.state n).place ∧
      (e.state m).loop = some (e.state (m + 1)) := by
  have hbusy' {s : EventLoop α τ} (h : s.place = (e.state n).place) : ¬ s.Busy := fun hs => by
    rw [Busy, h] at hs
    exact hbusy hs
  obtain ⟨m, hm, hinput, hplace, -⟩ := hfair.exists_input (i := .loop)
    (I := fun s => s.place = (e.state n).place ∧
      (s.writing none = true → ∃ task tempTasks, s.place = .running task tempTasks))
    (fun s hs => by
      have hnone : ¬ s.writing none = true := fun h => hbusy' hs.1 (Or.inr (hs.2 h))
      refine ⟨fun task tempTasks h => hbusy' hs.1 (Or.inr ⟨task, tempTasks, h⟩), ?_⟩
      have hsome := isSome_loop (hbusy' hs.1) (hs.1 ▸ (hgoing n).exited)
      simpa [machine, step, hnone] using hsome)
    (fun m _ hs op s' out _ hop hstep => ⟨(place_of_step (hbusy' hs.1) hop hstep).trans hs.1,
      running_of_step hs.2 hstep⟩) ⟨rfl, (hgoing n).writing⟩
  obtain ⟨out, hnext⟩ := e.exists_step hinput
  obtain ⟨-, hnext⟩ := Option.ite_none_left_eq_some.1 hnext
  obtain ⟨s', hloop, heq⟩ := Option.map_eq_some_iff.1 hnext
  cases heq
  exact ⟨m, hm, hplace, hloop⟩

variable (hfair : e.WeaklyFair GoesOn) (hreturns : Returns e)

include hfair

theorem exists_head_of_dispatching {callbacks : List (LoopCallback α)}
    (hplace : (e.state n).place = .dispatching callbacks) :
    ∃ m, n ≤ m ∧ (e.state m).place = .head := by
  have hbusy {n : ℕ} {callbacks : List (LoopCallback α)}
      (hplace : (e.state n).place = .dispatching callbacks) : ¬ (e.state n).Busy := by
    rw [Busy, hplace]
    rintro (hnot | ⟨task, tempTasks, hnot⟩) <;> cases hnot
  induction callbacks generalizing n with
  | nil =>
      obtain ⟨m, hm, hsame, hloop⟩ := exists_loop hgoing hfair (hbusy hplace)
      simp only [loop, hsame, hplace, Option.some.injEq] at hloop
      exact ⟨m + 1, hm.trans (Nat.le_succ m), hloop ▸ rfl⟩
  | cons callback callbacks ih =>
      obtain ⟨m, hm, hsame, hloop⟩ := exists_loop hgoing hfair (hbusy hplace)
      simp only [loop, hsame, hplace, Option.some.injEq] at hloop
      obtain ⟨k, hk, hhead⟩ := ih (n := m + 1) (hloop ▸ rfl)
      exact ⟨k, (hm.trans (Nat.le_succ m)).trans hk, hhead⟩

end Execution

theorem run_round (hplace : s.place = .head) (hpending : s.pendingTasks = [])
    (hstop : s.stopFlag = false) (hwriting : s.writing none = false) :
    machine.run s [.loop, .loop, .loop, .epollWait [], .loop] = some (s, [(), (), (), (), ()]) := by
  obtain ⟨stopFlag, pendingTasks, wakeupFd, place, writing, taken, pushed⟩ := s
  obtain rfl : place = .head := hplace
  obtain rfl : pendingTasks = [] := hpending
  obtain rfl : stopFlag = false := hstop
  change writing none = false at hwriting
  simp [Machine.run, machine, step, loop, epollWait, hwriting]

end EventLoop

end Rocket
