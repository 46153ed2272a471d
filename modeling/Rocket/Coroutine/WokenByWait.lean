import Rocket.Coroutine.WaitCallbacks

/-!
# Coroutines are woken by their waits

The callbacks of a descriptor are copied when `epoll_wait` has reported it, and run in the
next round of the loop. In between a timer event may resume the coroutine, and end the wait
that the copies are for. They are run all the same: `Resume` asks for a coroutine, not for
a wait. The same goes for the callbacks that `onTimer` has copied, when a coroutine that an
earlier one has resumed deletes the event of a later one.
-/

namespace Rocket

open Foundation

namespace HookedLoop

variable {ι ε : Type}

/-- `Resume` is called for the wait that the coroutine is in, by a timer event that has not
been deleted, or for a coroutine that does not wait. -/
def Sourced (s : HookedLoop ι ε) (cor : ι) : WakeSource ε → Prop
  | .callback wait => s.cors cor = .waiting wait
  | .timer e => (s.timer.events e).isCanceled = false
  | .start => (s.cors cor).wait? = none

instance [DecidableEq ε] (s : HookedLoop ι ε) (cor : ι) : ∀ source, Decidable (s.Sourced cor source)
  | .callback _ => inferInstanceAs (Decidable (_ = _))
  | .timer _ => inferInstanceAs (Decidable (_ = false))
  | .start => inferInstanceAs (Decidable (_ = none))

/-- The first event of the batch does not end a wait while a copy of the callback of the wait
is in `temp_tasks`, or its timeout is behind the event in the batch. -/
def EndsAlone (s : HookedLoop ι ε) : List ε → Prop
  | [] => True
  | e :: timerTasks => ∀ cor ∈ s.owner e, ∀ wait ∈ (s.cors cor).wait?,
      some (.callback ⟨cor, wait⟩) ∉ s.place.tempTasks ∧ ∀ e' ∈ wait.timer, e' ∉ timerTasks

instance [DecidableEq ι] [DecidableEq ε] (s : HookedLoop ι ε) : ∀ l, Decidable (s.EndsAlone l)
  | [] => isTrue trivial
  | e :: timerTasks => inferInstanceAs (Decidable (∀ cor ∈ s.owner e,
      ∀ wait ∈ (s.cors cor).wait?, some (.callback ⟨cor, wait⟩) ∉ s.place.tempTasks ∧
        ∀ e' ∈ wait.timer, e' ∉ timerTasks))

/-- No copy is left behind: a timer event ends a wait alone, an event is not deleted while
`onTimer` has still to run its callback, and a coroutine is started once. -/
def LeavesNone (s : HookedLoop ι ε) : HookOp ι ε → Prop
  | .runTimer => s.EndsAlone s.timerTasks
  | .deleteTimerEvent e => (s.owner e).isSome = true → e ∉ s.timerTasks
  | .addCoroutine cor | .resume cor => s.cors cor = .created
  | _ => True

instance [DecidableEq ι] [DecidableEq ε] (s : HookedLoop ι ε) : ∀ op, Decidable (s.LeavesNone op)
  | .runTimer => inferInstanceAs (Decidable (s.EndsAlone s.timerTasks))
  | .deleteTimerEvent e =>
      inferInstanceAs (Decidable ((s.owner e).isSome = true → e ∉ s.timerTasks))
  | .addCoroutine cor | .resume cor => inferInstanceAs (Decidable (s.cors cor = .created))
  | .addTask | .advance _ | .swap | .runTask | .epollWait _ | .dispatch | .readHook _
  | .acceptHook _ | .writeHook _ | .connectHook _ _ | .newTimerEvent _ _ _ _ | .addTimerEvent _
  | .opened _ | .close _ | .deleteEpollEvent _ | .clear _ | .finish => isTrue trivial

/-- What the step resumes, it resumes for the wait that the coroutine is in. -/
def WokenByWait [DecidableEq ι] [DecidableEq ε] (s : HookedLoop ι ε) (op : HookOp ι ε) : Prop :=
  ∀ p ∈ machine.step s op, ∀ r ∈ p.2, s.Sourced r.2 r.1

instance [DecidableEq ι] [DecidableEq ε] (s : HookedLoop ι ε) (op : HookOp ι ε) :
    Decidable (s.WokenByWait op) :=
  inferInstanceAs (Decidable (∀ p ∈ machine.step s op, ∀ r ∈ p.2, s.Sourced r.2 r.1))

section Steps

variable {s s' : HookedLoop ι ε}

theorem sourced_none : ∀ r ∈ (none : Option (WakeSource ε × ι)), s.Sourced r.2 r.1 := by
  intro r hr
  cases hr

/-- No coroutine runs while there are bits left. -/
theorem Tracked.cur_eq_none (h : s.Tracked) (hbits : s.place.bits ≠ []) : s.cur = none := by
  by_contra hcur
  obtain ⟨cor, hcor⟩ := Option.ne_none_iff_exists'.1 hcur
  exact hbits (h.timed.cur cor hcor).2

variable [DecidableEq ι] [DecidableEq ε]

theorem Tracked.start {cor : ι} (h : s.Tracked) (hnot : (s.cors cor).wait? = none)
    (hstart : some (.resume cor) ∉ s.tasks) (hbits : s.place.bits = []) :
    (s.resume cor).Tracked ∧
      ∀ r ∈ some (WakeSource.start, cor), s.Sourced r.2 r.1 := by
  refine ⟨h.resume (fun wait hwait => ?_) hstart hbits, fun r hr => ?_⟩
  · rw [hwait] at hnot
    cases hnot
  · cases hr
    exact hnot

theorem Tracked.runTask {task : Option (HookTask ι ε)} {tempTasks : List (Option (HookTask ι ε))}
    (h : s.Tracked) (hplace : s.place = .draining (task :: tempTasks))
    (hbatch : s.timerTasks = []) :
    Tracked ({ s with place := .draining tempTasks }.runTask task).1 ∧
      ∀ r ∈ ({ s with place := .draining tempTasks }.runTask task).2, s.Sourced r.2 r.1 := by
  have hpop := h.pop hplace
  have htasks : s.tasks = task :: tasks { s with place := .draining tempTasks } := by
    rw [tasks, tasks, hplace]
    rfl
  have hhead : task ∈ s.tasks := htasks ▸ List.mem_cons_self
  cases task with
  | none => exact ⟨hpop, sourced_none⟩
  | some task =>
      cases task with
      | callback callback =>
          obtain ⟨cor, wait⟩ := callback
          have hcor := h.queued.copies cor wait hhead
          have hcopy : some (.callback ⟨cor, wait⟩) ∉
              tasks { s with place := .draining tempTasks } := by
            intro hmem
            have hkeys := h.queued.keys
            rw [htasks, HookTask.filterMap_key_callback, List.cons_append] at hkeys
            exact (List.nodup_cons.1 hkeys).1
              (List.mem_append_left _ (HookTask.mem_filterMap_key hmem))
          refine ⟨hpop.resume (fun w hw => ?_) (fun hmem => ?_) rfl, fun r hr => ?_⟩
          · cases hcor.symm.trans hw
            refine ⟨hcopy, fun e _ => ?_⟩
            change e ∉ s.timerTasks
            rw [hbatch]
            exact List.not_mem_nil
          · cases hcor.symm.trans (hpop.queued.submitted cor hmem)
          · cases hr
            exact hcor
      | onTimer => exact ⟨hpop.onTimer, sourced_none⟩
      | resume cor =>
          have hcor := h.queued.submitted cor hhead
          have hstart : some (.resume cor) ∉ tasks { s with place := .draining tempTasks } := by
            intro hmem
            have hstarts := h.queued.starts
            rw [htasks, HookTask.filterMap_start_resume] at hstarts
            exact (List.nodup_cons.1 hstarts).1 (HookTask.mem_filterMap_start.2 hmem)
          refine hpop.start ?_ hstart rfl
          change (s.cors cor).wait? = none
          rw [hcor]
          rfl
      | other => exact ⟨hpop, sourced_none⟩

theorem Tracked.runTimer {e : ε} {timerTasks : List ε} (h : s.Tracked)
    (hplace : s.place = .draining s.place.tempTasks) (hbatch : s.timerTasks = e :: timerTasks)
    (hleft : s.LeavesNone .runTimer) :
    Tracked ({ s with timerTasks := timerTasks }.runTimer e).1 ∧
      ∀ r ∈ ({ s with timerTasks := timerTasks }.runTimer e).2, s.Sourced r.2 r.1 := by
  have hrest : Tracked { s with timerTasks := timerTasks } :=
    h.of_timer fun e' he' => h.timed.live e' (hbatch ▸ List.mem_cons_of_mem _ he')
  rw [LeavesNone, hbatch] at hleft
  have hfirst : e ∈ s.timerTasks := hbatch ▸ List.mem_cons_self
  rw [HookedLoop.runTimer]
  cases howner : s.owner e with
  | none => exact ⟨hrest, sourced_none⟩
  | some cor =>
      refine ⟨hrest.resume (fun w hw => ?_) (fun hmem => ?_) ?_, fun r hr => ?_⟩
      · obtain ⟨htemp, htimer⟩ := hleft cor howner w (by rw [hw]; rfl)
        refine ⟨fun hmem => ?_, htimer⟩
        rcases List.mem_append.1 hmem with hmem | hmem
        · exact htemp hmem
        · have hkeys := h.queued.drained _ hplace
          exact List.not_mem_nil (hkeys ▸ HookTask.mem_filterMap_key hmem)
      · have hstarted := h.timed.owned e cor howner
        rw [h.queued.submitted cor hmem] at hstarted
        cases hstarted
      · change s.place.bits = []
        rw [hplace]
        rfl
      · cases hr
        exact h.timed.live e hfirst (by rw [howner]; rfl)

/-- A step that leaves no copy behind keeps track of the waits, and resumes a coroutine for
the wait that it is in. -/
theorem Tracked.step {op : HookOp ι ε} {out : Option (WakeSource ε × ι)} (h : s.Tracked)
    (hleft : s.LeavesNone op) (hstep : machine.step s op = some (s', out)) :
    s'.Tracked ∧ ∀ r ∈ out, s.Sourced r.2 r.1 := by
  change s.step op = some (s', out) at hstep
  cases op with
  | addTask =>
      cases hstep
      exact ⟨h.addTask rfl nofun, sourced_none⟩
  | addCoroutine cor =>
      cases hstep
      exact ⟨h.addCoroutine hleft, sourced_none⟩
  | advance ms =>
      cases hstep
      exact ⟨h.of_timer h.timed.live, sourced_none⟩
  | resume cor =>
      obtain ⟨⟨_, hplace⟩, heq⟩ := Option.ite_none_right_eq_some.1 hstep
      cases heq
      have hcor : s.cors cor = .created := hleft
      refine h.start (by rw [hcor]; rfl) (fun hmem => ?_) (by rw [hplace]; rfl)
      cases hcor.symm.trans (h.queued.submitted cor hmem)
  | swap =>
      obtain ⟨⟨hcur, hplace⟩, heq⟩ := Option.ite_none_right_eq_some.1 hstep
      cases heq
      exact ⟨h.swap hplace hcur, sourced_none⟩
  | runTask =>
      simp only [HookedLoop.step] at hstep
      split at hstep
      · rename_i task tempTasks hplace
        obtain ⟨⟨_, hbatch⟩, heq⟩ := Option.ite_none_right_eq_some.1 hstep
        have hrun := h.runTask hplace hbatch
        rw [Option.some.inj heq] at hrun
        exact hrun
      · cases hstep
  | runTimer =>
      simp only [HookedLoop.step] at hstep
      split at hstep
      · rename_i tempTasks e timerTasks hplace hbatch
        obtain ⟨_, heq⟩ := Option.ite_none_right_eq_some.1 hstep
        have hrun := h.runTimer (by rw [hplace]; rfl) hbatch hleft
        rw [Option.some.inj heq] at hrun
        exact hrun
      · cases hstep
  | epollWait events =>
      obtain ⟨⟨hcur, _, hplace, hreports⟩, heq⟩ := Option.ite_none_right_eq_some.1 hstep
      cases heq
      exact ⟨h.epollWait hcur hplace hreports, sourced_none⟩
  | dispatch =>
      simp only [HookedLoop.step] at hstep
      split at hstep
      · rename_i hplace
        cases hstep
        exact ⟨h.dispatchedAll hplace, sourced_none⟩
      · rename_i bit bits hplace
        cases hstep
        refine ⟨h.dispatch (h.cur_eq_none ?_) hplace, sourced_none⟩
        rw [hplace]
        exact List.cons_ne_nil bit bits
      · cases hstep
  | readHook fd | acceptHook fd | writeHook fd =>
      rcases Option.map_eq_some_iff.1 hstep with ⟨t, hhook, heq⟩
      cases heq
      exact ⟨h.hook hhook, sourced_none⟩
  | connectHook fd e =>
      rcases Option.map_eq_some_iff.1 hstep with ⟨t, hhook, heq⟩
      cases heq
      exact ⟨h.connectHook hhook, sourced_none⟩
  | newTimerEvent e interval isRepeated resumes =>
      obtain ⟨_, heq⟩ := Option.ite_none_left_eq_some.1 hstep
      cases heq
      exact ⟨h.newTimerEvent e interval isRepeated resumes, sourced_none⟩
  | addTimerEvent e =>
      obtain ⟨_, heq⟩ := Option.ite_none_right_eq_some.1 hstep
      cases heq
      exact ⟨h.addTimerEvent e, sourced_none⟩
  | deleteTimerEvent e =>
      obtain ⟨_, heq⟩ := Option.ite_none_right_eq_some.1 hstep
      cases heq
      exact ⟨h.deleteTimerEvent hleft, sourced_none⟩
  | opened fd =>
      rcases Option.map_eq_some_iff.1 hstep with ⟨epoll, hopened, heq⟩
      cases heq
      exact ⟨h.opened hopened, sourced_none⟩
  | close fd =>
      cases hstep
      exact ⟨h.close fd, sourced_none⟩
  | deleteEpollEvent fd =>
      cases hstep
      exact ⟨h.deleteEpollEvent _, sourced_none⟩
  | clear fd =>
      cases hstep
      exact ⟨h.clear fd, sourced_none⟩
  | finish =>
      rcases Option.bind_eq_some_iff.1 hstep with ⟨cor, _, hbody⟩
      obtain ⟨hcor, heq⟩ := Option.ite_none_right_eq_some.1 hbody
      cases heq
      exact ⟨h.finish hcor, sourced_none⟩

end Steps

section Runs

variable [DecidableEq ι] [DecidableEq ε]

/-- In every run that leaves no copy behind, a coroutine is woken only by the wait that it
is in. -/
theorem wokenByWait_of_run {openFds : Finset ℕ} {clock : ℤ} {events : ε → TimerEvent}
    {ops : List (HookOp ι ε)} (hleft : machine.Meets LeavesNone (new openFds clock events) ops) :
    machine.Meets WokenByWait (new openFds clock events) ops := by
  refine hleft.imp (I := Tracked) (fun s op h hop p hp => ?_) (fun s op s' out h hop hstep => ?_)
    (tracked_new openFds clock events)
  · exact (h.step hop hp).2
  · exact (h.step hop hstep).1

end Runs

/-- A coroutine connects, with a timer event for the whole call, and then reads. -/
theorem wokenByWait_of_run_call :
    let start : HookedLoop (Fin 1) (Fin 2) := new {5, 6} 0 fun _ => ⟨0, 0, false, false, true⟩
    let ops : List (HookOp (Fin 1) (Fin 2)) :=
      [.addCoroutine 0, .swap, .runTask, .newTimerEvent 0 10000 false true, .addTimerEvent 0,
        .connectHook 5 1, .epollWait [], .dispatch, .swap, .epollWait [.fd 5 ⟨false, true⟩ false],
        .dispatch, .dispatch, .swap, .runTask, .readHook 6,
        .epollWait [.fd 6 ⟨true, false⟩ false], .dispatch, .dispatch, .swap, .runTask,
        .deleteTimerEvent 0, .finish]
    (machine.run start ops).isSome = true ∧ machine.Meets WokenByWait start ops :=
  ⟨by decide +kernel, wokenByWait_of_run (by decide +kernel)⟩

/-- The timer and the descriptor of a coroutine are reported together. `onTimer` is run
first, and its callback resumes the coroutine, which begins to read from another
descriptor. The copy of the first callback then ends the second wait. -/
theorem not_wokenByWait_reportedTogether :
    let start : HookedLoop (Fin 1) (Fin 2) := new {5, 6} 0 fun _ => ⟨0, 0, false, false, true⟩
    ¬ machine.Meets WokenByWait start
      [.resume 0, .newTimerEvent 0 10000 false true, .addTimerEvent 0, .readHook 5, .swap,
        .advance 10000, .epollWait [.timerFd, .fd 5 ⟨true, false⟩ false], .dispatch, .dispatch,
        .dispatch, .swap, .runTask, .runTimer, .readHook 6, .runTask] := by
  decide +kernel

end HookedLoop

end Rocket
