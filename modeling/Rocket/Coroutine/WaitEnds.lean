import Rocket.Coroutine.WaitKept
import Rocket.Foundation.Execution

/-!
# Every wait ends

A coroutine that waits in a hooked call is resumed, if its event is reported. Its callback is
copied when the loop comes to the event, and is run in the next round: the loop comes to the end of
each round, if the coroutines that it resumes wait again or finish, and if `epoll_wait` returns.
-/

namespace Rocket

open Foundation Machine

/-- A step of the loop, or one that resumes a coroutine outside of it. -/
def HookOp.isLoop {ι ε : Type} : HookOp ι ε → Bool
  | .swap | .runTask | .runTimer | .epollWait _ | .dispatch | .resume _ => true
  | _ => false

namespace HookedLoop

variable {ι ε : Type}

def GoesOn (_ : HookedLoop ι ε) : HookOp ι ε → Prop
  | .swap | .runTask | .runTimer | .dispatch => True
  | _ => False

/-- The loop is in `epoll_wait`. -/
structure Idle (s : HookedLoop ι ε) : Prop where
  place : s.place = .draining []
  timerTasks : s.timerTasks = []
  cur : s.cur = none

/-- The step that is due when no coroutine runs. In `epoll_wait` there is none. -/
def due (s : HookedLoop ι ε) : Option (HookOp ι ε) :=
  match s.place, s.timerTasks with
  | .head, _ => some .swap
  | .draining _, _ :: _ => some .runTimer
  | .draining (_ :: _), [] => some .runTask
  | .draining [], [] => none
  | .dispatching _, _ => some .dispatch

/-- No coroutine runs while the loop looks at what `epoll_wait` has reported. -/
def Quiet (s : HookedLoop ι ε) : Prop := ∀ bits, s.place = .dispatching bits → s.cur = none

/-- The step leaves the place of the loop alone, and no coroutine begins to run or ceases to
wait. -/
structure Framed (s s' : HookedLoop ι ε) : Prop where
  place : s'.place = s.place
  timerTasks : s'.timerTasks = s.timerTasks
  cur : s.cur = none → s'.cur = none
  tasks : ∀ task ∈ s.tasks, task ∈ s'.tasks
  waits : ∀ cor wait, s.cors cor = .waiting wait → s'.cors cor = .waiting wait

section Steps

variable {s s' : HookedLoop ι ε} {op : HookOp ι ε} {out : Option (WakeSource ε × ι)}

theorem Framed.addTask (s : HookedLoop ι ε) (task : Option (HookTask ι ε)) :
    s.Framed (s.addTask task) := by
  refine ⟨rfl, rfl, id, fun task' hmem => ?_, fun _ _ => id⟩
  rw [tasks_addTask]
  exact List.mem_append_left _ hmem

theorem Framed.dispatch (s : HookedLoop ι ε) (bit : ReadyBit) : s.Framed (s.dispatch bit) := by
  cases bit with
  | timerFd | wakeUpFd | event fd ev => exact .addTask s _
  | error fd =>
      simp only [HookedLoop.dispatch]
      split
      · exact ⟨rfl, rfl, id, (Framed.addTask s _).tasks, fun _ _ => id⟩
      · exact ⟨rfl, rfl, id, fun _ => id, fun _ _ => id⟩

variable [DecidableEq ι]

theorem Framed.of_cors {cor : ι} {state : HookedCor ε} (h : (s.cors cor).wait? = none)
    (hplace : s'.place = s.place) (hbatch : s'.timerTasks = s.timerTasks)
    (hcur : s.cur = none → s'.cur = none) (htasks : s'.tasks = s.tasks)
    (hcors : s'.cors = Function.update s.cors cor state) : s.Framed s' := by
  refine ⟨hplace, hbatch, hcur, fun task hmem => htasks ▸ hmem, fun c wait hw => ?_⟩
  have hne : c ≠ cor := by
    rintro rfl
    rw [hw] at h
    cases h
  rw [hcors, Function.update_of_ne hne, hw]

variable [DecidableEq ε]

theorem Framed.hook {fd : ℕ} {ev : TriggerEvent} {timer : Option ε}
    (hhook : s.hook fd ev timer = some s') : s.Framed s' := by
  rcases Option.bind_eq_some_iff.1 hhook with ⟨cor, -, hbody⟩
  obtain ⟨hcor, heq⟩ := Option.ite_none_right_eq_some.1 hbody
  cases heq
  exact .of_cors (by rw [hcor]; rfl) rfl rfl (fun _ => rfl) rfl rfl

theorem framed_of_step (hop : op.isLoop = false) (hstep : machine.step s op = some (s', out)) :
    s.Framed s' := by
  change s.step op = some (s', out) at hstep
  cases op with
  | swap | runTask | runTimer | epollWait | dispatch | resume => cases hop
  | addTask =>
      cases hstep
      exact .addTask s _
  | addCoroutine cor =>
      cases hstep
      obtain ⟨hplace, hbatch, hcur, htasks, -⟩ := Framed.addTask s (some (.resume cor))
      refine ⟨hplace, hbatch, hcur, htasks, fun c wait hw => ?_⟩
      change Function.update s.cors cor _ c = _
      by_cases heq : c = cor
      · subst heq
        have hne : (HookedCor.waiting wait : HookedCor ε) ≠ .created := fun hnot => by cases hnot
        rw [Function.update_self, hw, if_neg hne]
      · rw [Function.update_of_ne heq, hw]
  | advance | close | deleteEpollEvent | clear =>
      cases hstep
      exact ⟨rfl, rfl, id, fun _ => id, fun _ _ => id⟩
  | readHook fd | acceptHook fd | writeHook fd =>
      rcases Option.map_eq_some_iff.1 hstep with ⟨t, hbody, heq⟩
      cases heq
      exact .hook hbody
  | connectHook fd e =>
      rcases Option.map_eq_some_iff.1 hstep with ⟨t, hbody, heq⟩
      cases heq
      obtain ⟨-, hbody⟩ := Option.ite_none_left_eq_some.1 hbody
      obtain ⟨hplace, hbatch, hcur, htasks, hwaits⟩ := Framed.hook hbody
      exact ⟨hplace, hbatch, hcur, htasks, hwaits⟩
  | newTimerEvent e interval isRepeated resumes =>
      obtain ⟨-, heq⟩ := Option.ite_none_left_eq_some.1 hstep
      cases heq
      exact ⟨rfl, rfl, id, fun _ => id, fun _ _ => id⟩
  | addTimerEvent e | deleteTimerEvent e =>
      obtain ⟨-, heq⟩ := Option.ite_none_right_eq_some.1 hstep
      cases heq
      exact ⟨rfl, rfl, id, fun _ => id, fun _ _ => id⟩
  | opened fd =>
      rcases Option.map_eq_some_iff.1 hstep with ⟨epoll, -, heq⟩
      cases heq
      exact ⟨rfl, rfl, id, fun _ => id, fun _ _ => id⟩
  | finish =>
      rcases Option.bind_eq_some_iff.1 hstep with ⟨cor, -, hbody⟩
      obtain ⟨hcor, heq⟩ := Option.ite_none_right_eq_some.1 hbody
      cases heq
      exact .of_cors (by rw [hcor]; rfl) rfl rfl (fun _ => rfl) rfl rfl

/-- `Resume` leaves the loop alone. -/
theorem frame_resume (s : HookedLoop ι ε) (cor : ι) :
    (s.resume cor).place = s.place ∧ (s.resume cor).timerTasks = s.timerTasks ∧
      (s.resume cor).pendingTasks = s.pendingTasks := by
  unfold resume
  split <;> exact ⟨rfl, rfl, rfl⟩

/-- What the loop itself does. -/
inductive LoopStep (s s' : HookedLoop ι ε) : HookOp ι ε → Prop
  | swap (hplace : s.place = .head) (hcur : s.cur = none)
      (hnext : s' = { s with pendingTasks := [], place := .draining s.pendingTasks }) :
      LoopStep s s' .swap
  | runTask (task : Option (HookTask ι ε)) (tempTasks : List (Option (HookTask ι ε)))
      (hplace : s.place = .draining (task :: tempTasks)) (hcur : s.cur = none)
      (hbatch : s.timerTasks = [])
      (hnext : s' = ({ s with place := .draining tempTasks }.runTask task).1) :
      LoopStep s s' .runTask
  | runTimer (e : ε) (timerTasks : List ε) (tempTasks : List (Option (HookTask ι ε)))
      (hplace : s.place = .draining tempTasks) (hcur : s.cur = none)
      (hbatch : s.timerTasks = e :: timerTasks)
      (hnext : s' = ({ s with timerTasks := timerTasks }.runTimer e).1) : LoopStep s s' .runTimer
  | epollWait (events : List ReadyFd) (hidle : s.Idle)
      (hnext : s' = { s with place := .dispatching (events.flatMap ReadyFd.bits) }) :
      LoopStep s s' (.epollWait events)
  | dispatched (hplace : s.place = .dispatching []) (hnext : s' = { s with place := .head }) :
      LoopStep s s' .dispatch
  | dispatch (bit : ReadyBit) (bits : List ReadyBit) (hplace : s.place = .dispatching (bit :: bits))
      (hnext : s' = { s with place := .dispatching bits }.dispatch bit) : LoopStep s s' .dispatch
  | resume (cor : ι) (hplace : s.place = .head) (hcur : s.cur = none)
      (hnext : s' = s.resume cor) : LoopStep s s' (.resume cor)

theorem loopStep_of_step (hop : op.isLoop = true) (hstep : machine.step s op = some (s', out)) :
    LoopStep s s' op := by
  change s.step op = some (s', out) at hstep
  cases op with
  | swap =>
      obtain ⟨⟨hcur, hplace⟩, heq⟩ := Option.ite_none_right_eq_some.1 hstep
      cases heq
      exact .swap hplace hcur rfl
  | runTask =>
      simp only [HookedLoop.step] at hstep
      split at hstep
      · rename_i task tempTasks hplace
        obtain ⟨⟨hcur, hbatch⟩, heq⟩ := Option.ite_none_right_eq_some.1 hstep
        exact .runTask task tempTasks hplace hcur hbatch
          (congrArg Prod.fst (Option.some.inj heq)).symm
      · cases hstep
  | runTimer =>
      simp only [HookedLoop.step] at hstep
      split at hstep
      · rename_i tempTasks e timerTasks hplace hbatch
        obtain ⟨hcur, heq⟩ := Option.ite_none_right_eq_some.1 hstep
        exact .runTimer e timerTasks tempTasks hplace hcur hbatch
          (congrArg Prod.fst (Option.some.inj heq)).symm
      · cases hstep
  | epollWait events =>
      obtain ⟨⟨hcur, hbatch, hplace, -⟩, heq⟩ := Option.ite_none_right_eq_some.1 hstep
      cases heq
      exact .epollWait events ⟨hplace, hbatch, hcur⟩ rfl
  | dispatch =>
      simp only [HookedLoop.step] at hstep
      split at hstep
      · rename_i hplace
        cases hstep
        exact .dispatched hplace rfl
      · rename_i bit bits hplace
        cases hstep
        exact .dispatch bit bits hplace rfl
      · cases hstep
  | resume cor =>
      obtain ⟨⟨hcur, hplace⟩, heq⟩ := Option.ite_none_right_eq_some.1 hstep
      cases heq
      exact .resume cor hplace hcur rfl
  | _ => cases hop

theorem place_runTask (s : HookedLoop ι ε) (task : Option (HookTask ι ε)) :
    (s.runTask task).1.place = s.place ∧ (s.runTask task).1.pendingTasks = s.pendingTasks := by
  rcases task with _ | _ | _ | _ | _
  · exact ⟨rfl, rfl⟩
  · exact ⟨(s.frame_resume _).1, (s.frame_resume _).2.2⟩
  · exact ⟨rfl, rfl⟩
  · exact ⟨(s.frame_resume _).1, (s.frame_resume _).2.2⟩
  · exact ⟨rfl, rfl⟩

theorem frame_runTimer (s : HookedLoop ι ε) (e : ε) :
    (s.runTimer e).1.place = s.place ∧ (s.runTimer e).1.timerTasks = s.timerTasks ∧
      (s.runTimer e).1.pendingTasks = s.pendingTasks := by
  unfold runTimer
  cases s.owner e with
  | none => exact ⟨rfl, rfl, rfl⟩
  | some cor => exact s.frame_resume cor

theorem cors_resume (s : HookedLoop ι ε) (c cor : ι) :
    (s.resume c).cors cor = s.cors cor ∨ c = cor ∧ (s.resume c).cors cor = .running := by
  have hupdate : Function.update s.cors c .running cor = s.cors cor ∨
      c = cor ∧ Function.update s.cors c .running cor = .running := by
    by_cases heq : c = cor
    · subst heq
      exact Or.inr ⟨rfl, Function.update_self ..⟩
    · exact Or.inl (Function.update_of_ne (Ne.symm heq) ..)
  unfold resume
  split
  · exact hupdate
  · exact hupdate
  · exact hupdate
  · exact Or.inl rfl
  · exact Or.inl rfl

theorem running_of_step {cor : ι} {wait : HookWait ε} (hcor : s.cors cor = .waiting wait)
    (hstep : machine.step s op = some (s', out)) :
    s'.cors cor = .waiting wait ∨ s'.cors cor = .running := by
  have hresume (s : HookedLoop ι ε) (c : ι) (hcor : s.cors cor = .waiting wait) :
      (s.resume c).cors cor = .waiting wait ∨ (s.resume c).cors cor = .running :=
    (s.cors_resume c cor).imp (fun heq => heq.trans hcor) And.right
  by_cases hop : op.isLoop = true
  · cases loopStep_of_step hop hstep with
    | swap _ _ hnext | epollWait _ _ hnext | dispatched _ hnext => exact Or.inl (hnext ▸ hcor)
    | runTask task tempTasks _ _ _ hnext =>
        subst hnext
        rcases task with _ | _ | _ | _ | _
        · exact Or.inl hcor
        · exact hresume _ _ hcor
        · exact Or.inl hcor
        · exact hresume _ _ hcor
        · exact Or.inl hcor
    | runTimer e timerTasks _ _ _ _ hnext =>
        subst hnext
        rw [runTimer]
        cases s.owner e with
        | none => exact Or.inl hcor
        | some c => exact hresume _ c hcor
    | dispatch bit bits _ hnext =>
        subst hnext
        cases bit with
        | timerFd | wakeUpFd | event fd ev => exact Or.inl hcor
        | error fd =>
            simp only [dispatch]
            split <;> exact Or.inl hcor
    | resume c _ _ hnext => exact hnext ▸ hresume s c hcor
  · exact Or.inl ((framed_of_step (Bool.eq_false_iff.2 hop) hstep).waits cor wait hcor)

theorem Copied.step {cor : ι} {wait : HookWait ε} (hcopied : s.Copied cor wait)
    (htracked : s.Tracked) (hstep : machine.step s op = some (s', out))
    (hcor : s'.cors cor = .waiting wait) : s'.Copied cor wait := by
  by_cases hop : op.isLoop = true
  · cases loopStep_of_step hop hstep with
    | swap hplace _ hnext =>
        subst hnext
        rw [Copied, tasks, hplace] at hcopied
        exact List.mem_append_left _ hcopied
    | runTask task tempTasks hplace _ _ hnext =>
        have hframe := place_runTask { s with place := .draining tempTasks } task
        rw [← hnext] at hframe
        rw [Copied, tasks, hplace] at hcopied
        rcases List.mem_cons.1 hcopied with heq | hmem
        · -- The task resumes the coroutine.
          subst heq
          have hwait := htracked.queued.copies cor wait <| by
            rw [tasks, hplace]
            exact List.mem_cons_self
          subst hnext
          simp only [runTask, resume, hwait, goOn, Function.update_self] at hcor
          cases hcor
        · rw [Copied, tasks, hframe.1, hframe.2]
          exact hmem
    | runTimer e timerTasks tempTasks hplace _ _ hnext =>
        obtain ⟨hplace', -, hpending⟩ := frame_runTimer { s with timerTasks := timerTasks } e
        subst hnext
        rw [Copied, tasks, hplace', hpending]
        exact hcopied
    | epollWait events hidle hnext =>
        subst hnext
        rwa [Copied, tasks, hidle.place] at hcopied
    | dispatched hplace hnext =>
        subst hnext
        rwa [Copied, tasks, hplace] at hcopied
    | dispatch bit bits hplace hnext =>
        subst hnext
        rw [Copied, tasks, hplace] at hcopied
        exact (Framed.dispatch { s with place := .dispatching bits } bit).tasks _ hcopied
    | resume c _ _ hnext =>
        obtain ⟨hplace', -, hpending⟩ := s.frame_resume c
        rw [Copied, tasks, hnext, hplace', hpending]
        exact hcopied
  · exact (framed_of_step (Bool.eq_false_iff.2 hop) hstep).tasks _ hcopied

theorem Armed.step {cor : ι} {wait : HookWait ε} (harmed : s.Armed cor wait)
    (hbit : .event wait.fd wait.ev ∈ s.place.bits) (hstep : machine.step s op = some (s', out)) :
    .event wait.fd wait.ev ∈ s'.place.bits ∨ s'.Copied cor wait := by
  by_cases hop : op.isLoop = true
  · cases loopStep_of_step hop hstep with
    | swap hplace _ _ | runTask _ _ hplace _ _ _ | runTimer _ _ _ hplace _ _ _
    | dispatched hplace _ | resume _ hplace _ _ =>
        rw [hplace] at hbit
        cases hbit
    | epollWait events hidle hnext =>
        rw [hidle.place] at hbit
        cases hbit
    | dispatch bit bits hplace hnext =>
        rw [hplace] at hbit
        subst hnext
        rcases List.mem_cons.1 hbit with heq | hmem
        · subst heq
          refine Or.inr ?_
          rw [Copied, dispatch, harmed.handler, tasks_addTask]
          exact List.mem_append_right _ List.mem_cons_self
        · rw [(Framed.dispatch { s with place := .dispatching bits } bit).place]
          exact Or.inl hmem
  · rw [(framed_of_step (Bool.eq_false_iff.2 hop) hstep).place]
    exact Or.inl hbit

theorem LoopStep.eq_of_due {due : HookOp ι ε} (h : LoopStep s s' op) (hdue : s.due = some due) :
    op = due ∨ ∃ cor, op = .resume cor := by
  unfold HookedLoop.due at hdue
  cases h with
  | swap hplace _ _ | dispatched hplace _ | dispatch _ _ hplace _ =>
      rw [hplace] at hdue
      exact Or.inl (Option.some.inj hdue)
  | runTask task tempTasks hplace _ hbatch _ | runTimer t timerTasks tempTasks hplace _ hbatch _ =>
      rw [hplace, hbatch] at hdue
      exact Or.inl (Option.some.inj hdue)
  | epollWait events hidle _ =>
      rw [hidle.place, hidle.timerTasks] at hdue
      cases hdue
  | resume cor _ _ _ => exact Or.inr ⟨cor, rfl⟩

omit [DecidableEq ι] [DecidableEq ε] in
theorem goesOn_of_due (hdue : s.due = some op) (t : HookedLoop ι ε) :
    t.GoesOn op ∧ op.isLoop = true := by
  unfold HookedLoop.due at hdue
  split at hdue <;> cases hdue <;> exact ⟨trivial, rfl⟩

theorem isSome_of_due (hcur : s.cur = none) (hdue : s.due = some op) :
    (machine.step s op).isSome = true := by
  unfold HookedLoop.due at hdue
  cases hplace : s.place with
  | head =>
      rw [hplace] at hdue
      cases hdue
      simp [machine, step, hcur, hplace]
  | draining tempTasks =>
      rw [hplace] at hdue
      cases hbatch : s.timerTasks with
      | cons t timerTasks =>
          rw [hbatch] at hdue
          cases hdue
          simp [machine, step, hcur, hplace, hbatch]
      | nil =>
          rw [hbatch] at hdue
          cases tempTasks with
          | nil => cases hdue
          | cons task tempTasks =>
              cases hdue
              simp [machine, step, hcur, hplace, hbatch]
  | dispatching bits =>
      rw [hplace] at hdue
      cases hdue
      cases bits <;> simp [machine, step, hplace]

theorem Quiet.step (h : s.Quiet) (hstep : machine.step s op = some (s', out)) : s'.Quiet := by
  intro bits hbits
  by_cases hop : op.isLoop = true
  · cases loopStep_of_step hop hstep with
    | swap _ hcur hnext => exact hnext ▸ hcur
    | runTask task tempTasks _ _ _ hnext =>
        rw [hnext, (place_runTask _ task).1] at hbits
        cases hbits
    | runTimer t timerTasks tempTasks hplace _ _ hnext =>
        rw [hnext, (frame_runTimer _ t).1] at hbits
        cases hplace.symm.trans hbits
    | epollWait events hidle hnext => exact hnext ▸ hidle.cur
    | dispatched hplace hnext => exact hnext ▸ h [] hplace
    | dispatch bit bits hplace hnext =>
        subst hnext
        exact (Framed.dispatch _ bit).cur (h _ hplace)
    | resume cor hplace _ hnext =>
        rw [hnext, (s.frame_resume cor).1, hplace] at hbits
        cases hbits
  · have hframed := framed_of_step (Bool.eq_false_iff.2 hop) hstep
    exact hframed.cur (h bits (hframed.place.symm.trans hbits))

end Steps

section Execution

variable [DecidableEq ι] [DecidableEq ε] {e : Execution (machine (ι := ι) (ε := ε))} {n : ℕ}

/-- The coroutines that are resumed wait again or finish, `epoll_wait` returns, and from some time
on only the loop resumes coroutines. -/
structure Returns (e : Execution (machine (ι := ι) (ε := ε))) : Prop where
  cur : ∀ n, ∃ m, n ≤ m ∧ (e.state m).cur = none
  epollWait : ∀ n, (e.state n).Idle → ∃ m, n ≤ m ∧ ¬ (e.state m).Idle
  entered : ∃ n, ∀ m, n ≤ m → ∀ cor, e.input m ≠ some (.resume cor)

variable (hquiet : ∀ m, (e.state m).Quiet) (hreturns : Returns e)

include hquiet hreturns in
theorem exists_back (n : ℕ) :
    ∃ m, n ≤ m ∧ (e.state m).cur = none ∧ (e.state m).place = (e.state n).place ∧
      (e.state m).timerTasks = (e.state n).timerTasks := by
  classical
  have hback := hreturns.cur n
  obtain ⟨hm, hcur⟩ := Nat.find_spec hback
  refine ⟨Nat.find hback, hm, hcur, ?_⟩
  refine e.keeps (I := fun s => s.place = (e.state n).place ∧
    s.timerTasks = (e.state n).timerTasks) hm (fun k hk hlt hs op s' o _ hstep => ?_) ⟨rfl, rfl⟩
  -- Until then the loop does nothing.
  have hcur' : (e.state k).cur ≠ none := fun h => Nat.find_min hback hlt ⟨hk, h⟩
  by_cases hop : op.isLoop = true
  · cases loopStep_of_step hop hstep with
    | swap _ hnone _ | runTask _ _ _ hnone _ _ | runTimer _ _ _ _ hnone _ _ | resume _ _ hnone _ =>
        exact absurd hnone hcur'
    | epollWait _ hidle _ => exact absurd hidle.cur hcur'
    | dispatched hplace _ | dispatch _ _ hplace _ => exact absurd (hquiet k _ hplace) hcur'
  · have hframed := framed_of_step (Bool.eq_false_iff.2 hop) hstep
    exact ⟨hframed.place.trans hs.1, hframed.timerTasks.trans hs.2⟩

variable (hfair : e.WeaklyFair GoesOn)
  (hentered : ∀ m, n ≤ m → ∀ cor, e.input m ≠ some (.resume cor))

include hquiet hreturns hfair hentered

theorem exists_loopStep {op : HookOp ι ε} (hdue : (e.state n).due = some op) :
    ∃ m, n ≤ m ∧ (e.state m).place = (e.state n).place ∧
      (e.state m).timerTasks = (e.state n).timerTasks ∧
        LoopStep (e.state m) (e.state (m + 1)) op := by
  obtain ⟨k, hk, hcur, hplace, hbatch⟩ := exists_back hquiet hreturns n
  have hdue' {s : HookedLoop ι ε} (hplace : s.place = (e.state n).place)
      (hbatch : s.timerTasks = (e.state n).timerTasks) : s.due = some op := by
    rw [← hdue, due, due, hplace, hbatch]
  obtain ⟨m, hm, hinput, -, hplace, hbatch⟩ := hfair.exists_input (n := k) (i := op)
    (I := fun s => s.cur = none ∧ s.place = (e.state n).place ∧
      s.timerTasks = (e.state n).timerTasks)
    (fun s hs => ⟨(goesOn_of_due hdue s).1, isSome_of_due hs.1 (hdue' hs.2.1 hs.2.2)⟩)
    (fun m hm hs j s' o hinput hne hstep => by
      by_cases hop : j.isLoop = true
      · rcases (loopStep_of_step hop hstep).eq_of_due (hdue' hs.2.1 hs.2.2) with rfl | ⟨cor, rfl⟩
        · exact absurd rfl hne
        · exact absurd hinput (hentered m (hk.trans hm) cor)
      · have hframed := framed_of_step (Bool.eq_false_iff.2 hop) hstep
        exact ⟨hframed.cur hs.1, hframed.place.trans hs.2.1, hframed.timerTasks.trans hs.2.2⟩)
    ⟨hcur, hplace, hbatch⟩
  obtain ⟨o, hnext⟩ := e.exists_step hinput
  exact ⟨m, hk.trans hm, hplace, hbatch, loopStep_of_step (goesOn_of_due hdue (e.state m)).2 hnext⟩

/-- The callbacks that `onTimer` has collected are run. -/
theorem exists_batchEmpty {tempTasks : List (Option (HookTask ι ε))}
    (hplace : (e.state n).place = .draining tempTasks) :
    ∃ m, n ≤ m ∧ (e.state m).place = .draining tempTasks ∧ (e.state m).timerTasks = [] := by
  generalize hbatch : (e.state n).timerTasks = timerTasks
  induction timerTasks generalizing n with
  | nil => exact ⟨n, le_rfl, hplace, hbatch⟩
  | cons t timerTasks ih =>
      have hdue : (e.state n).due = some .runTimer := by rw [due, hplace, hbatch]
      obtain ⟨m, hm, hsame, hsame', hstep⟩ :=
        exists_loopStep hquiet hreturns hfair hentered hdue
      cases hstep with
      | runTimer t' timerTasks' tempTasks' _ _ hbatch' hnext =>
          obtain ⟨hplace', htimer', -⟩ :=
            frame_runTimer { e.state m with timerTasks := timerTasks' } t'
          cases (hsame'.trans hbatch).symm.trans hbatch'
          rw [← hnext] at hplace' htimer'
          have hle : n ≤ m + 1 := hm.trans (Nat.le_succ m)
          obtain ⟨k, hk, hend⟩ := ih (fun k hk => hentered k (hle.trans hk))
            (hplace'.trans (hsame.trans hplace)) htimer'
          exact ⟨k, hle.trans hk, hend⟩

theorem exists_idle_of_draining {tempTasks : List (Option (HookTask ι ε))}
    (hplace : (e.state n).place = .draining tempTasks) : ∃ m, n ≤ m ∧ (e.state m).Idle := by
  induction tempTasks generalizing n with
  | nil =>
      obtain ⟨k, hk, hplace', hbatch⟩ := exists_batchEmpty hquiet hreturns hfair hentered hplace
      obtain ⟨m, hm, hcur, hsame, hsame'⟩ := exists_back hquiet hreturns k
      exact ⟨m, hk.trans hm, hsame.trans hplace', hsame'.trans hbatch, hcur⟩
  | cons task tempTasks ih =>
      obtain ⟨k, hk, hplace', hbatch⟩ := exists_batchEmpty hquiet hreturns hfair hentered hplace
      have hdue : (e.state k).due = some .runTask := by rw [due, hplace', hbatch]
      obtain ⟨m, hm, hsame, -, hstep⟩ := exists_loopStep hquiet hreturns hfair
        (fun m hm => hentered m (hk.trans hm)) hdue
      cases hstep with
      | runTask task' tempTasks' hdraining _ _ hnext =>
          cases (hsame.trans hplace').symm.trans hdraining
          have hle : n ≤ m + 1 := hk.trans (hm.trans (Nat.le_succ m))
          obtain ⟨j, hj, hidle⟩ := ih (n := m + 1) (fun j hj => hentered j (hle.trans hj))
            (by rw [hnext, (place_runTask _ task).1])
          exact ⟨j, hle.trans hj, hidle⟩

theorem exists_head_of_dispatching {bits : List ReadyBit}
    (hplace : (e.state n).place = .dispatching bits) :
    ∃ m, n ≤ m ∧ (e.state m).place = .head := by
  induction bits generalizing n with
  | nil =>
      have hdue : (e.state n).due = some .dispatch := by rw [due, hplace]
      obtain ⟨m, hm, hsame, -, hstep⟩ := exists_loopStep hquiet hreturns hfair hentered hdue
      cases hstep with
      | dispatched _ hnext => exact ⟨m + 1, hm.trans (Nat.le_succ m), by rw [hnext]⟩
      | dispatch bit bits hbits _ => cases (hsame.trans hplace).symm.trans hbits
  | cons bit bits ih =>
      have hdue : (e.state n).due = some .dispatch := by rw [due, hplace]
      obtain ⟨m, hm, hsame, -, hstep⟩ := exists_loopStep hquiet hreturns hfair hentered hdue
      cases hstep with
      | dispatched hdone _ => cases (hsame.trans hplace).symm.trans hdone
      | dispatch bit' bits' hbits hnext =>
          cases (hsame.trans hplace).symm.trans hbits
          have hle : n ≤ m + 1 := hm.trans (Nat.le_succ m)
          obtain ⟨k, hk, hhead⟩ := ih (n := m + 1) (fun k hk => hentered k (hle.trans hk))
            (by rw [hnext, (Framed.dispatch _ bit).place])
          exact ⟨k, hle.trans hk, hhead⟩

/-- The loop comes to `epoll_wait` again and again. -/
theorem exists_idle : ∃ m, n ≤ m ∧ (e.state m).Idle := by
  have hhead {k : ℕ} (hk : n ≤ k) (hplace : (e.state k).place = .head) :
      ∃ m, n ≤ m ∧ (e.state m).Idle := by
    have hdue : (e.state k).due = some .swap := by rw [due, hplace]
    obtain ⟨m, hm, -, -, hstep⟩ := exists_loopStep hquiet hreturns hfair
      (fun m hm => hentered m (hk.trans hm)) hdue
    cases hstep with
    | swap _ _ hnext =>
        have hle : n ≤ m + 1 := hk.trans (hm.trans (Nat.le_succ m))
        have hdraining : (e.state (m + 1)).place = .draining (e.state m).pendingTasks := by
          rw [hnext]
        obtain ⟨j, hj, hidle⟩ := exists_idle_of_draining hquiet hreturns hfair
          (fun j hj => hentered j (hle.trans hj)) hdraining
        exact ⟨j, hle.trans hj, hidle⟩
  cases hplace : (e.state n).place with
  | head => exact hhead le_rfl hplace
  | draining tempTasks => exact exists_idle_of_draining hquiet hreturns hfair hentered hplace
  | dispatching bits =>
      obtain ⟨k, hk, hnew⟩ := exists_head_of_dispatching hquiet hreturns hfair hentered hplace
      exact hhead hk hnew

omit hentered in
/-- A coroutine whose callback has been copied does not wait for ever. -/
theorem not_copied_forever {cor : ι} {wait : HookWait ε} (htracked : ∀ m, (e.state m).Tracked)
    (hwaits : ∀ m, n ≤ m → (e.state m).cors cor = .waiting wait) :
    ¬ (e.state n).Copied cor wait := by
  intro hcopied
  obtain ⟨start, hentered⟩ := hreturns.entered
  obtain ⟨m, hm, hidle⟩ := exists_idle hquiet hreturns hfair (n := max n start)
    fun m hm => hentered m ((le_max_right _ _).trans hm)
  have hcopied' : (e.state m).Copied cor wait := by
    refine e.keeps (I := fun s => s.Copied cor wait) ((le_max_left _ _).trans hm)
      (fun k hk _ hs op s' o hinput hstep => hs.step (htracked k) hstep ?_) hcopied
    rw [← Execution.state_succ hinput hstep]
    exact hwaits (k + 1) (Nat.le_succ_of_le hk)
  -- In `epoll_wait` there are no copies in the queue.
  have hkeys := (htracked m).queued.drained [] hidle.place
  rw [Copied, tasks, hidle.place] at hcopied'
  exact List.not_mem_nil (hkeys ▸ HookTask.mem_filterMap_key hcopied')

omit hentered in
/-- An event that has been reported is not pending for ever. -/
theorem not_reported_forever {cor : ι} {wait : HookWait ε}
    (harmed : ∀ m, n ≤ m → (e.state m).Armed cor wait)
    (hnone : ∀ m, n ≤ m → ¬ (e.state m).Copied cor wait) :
    .event wait.fd wait.ev ∉ (e.state n).place.bits := by
  intro hbit
  obtain ⟨start, hentered⟩ := hreturns.entered
  obtain ⟨m, hm, hidle⟩ := exists_idle hquiet hreturns hfair (n := max n start)
    fun m hm => hentered m ((le_max_right _ _).trans hm)
  have hbit' : .event wait.fd wait.ev ∈ (e.state m).place.bits := by
    refine e.keeps (I := fun s => .event wait.fd wait.ev ∈ s.place.bits)
      ((le_max_left _ _).trans hm) (fun k hk _ hs op s' o hinput hstep => ?_) hbit
    refine ((harmed k hk).step hs hstep).resolve_right fun hcopied => ?_
    exact hnone (k + 1) (Nat.le_succ_of_le hk) (Execution.state_succ hinput hstep ▸ hcopied)
  rw [hidle.place] at hbit'
  cases hbit'

end Execution

def Reported [DecidableEq ι] [DecidableEq ε] (e : Execution (machine (ι := ι) (ε := ε))) (fd : ℕ)
    (ev : TriggerEvent) : Prop :=
  ∀ n, (∀ m, n ≤ m → (e.state m).epoll.Waits fd ev) → ∃ m events, n ≤ m ∧
    e.input m = some (.epollWait events) ∧ .event fd ev ∈ events.flatMap ReadyFd.bits

/-- If the thread is scheduled, the coroutines that are resumed wait again or finish, and
`epoll_wait` returns, then every wait ends whose event is reported when it stays registered, and
the coroutine goes on. No step may take a wait away. -/
theorem resumed_of_fair [DecidableEq ι] [DecidableEq ε] {openFds : Finset ℕ} {clock : ℤ}
    {events : ε → TimerEvent} (e : Execution (machine (ι := ι) (ε := ε)))
    (hnew : e.state 0 = new openFds clock events)
    (hkeeps : e.Meets fun s op => s.LeavesNone op ∧ s.KeepsWaits op)
    (hfair : e.WeaklyFair GoesOn) (hreturns : Returns e) (n : ℕ) (cor : ι) (wait : HookWait ε)
    (hcor : (e.state n).cors cor = .waiting wait) (hreported : Reported e wait.fd wait.ev) :
    ∃ m, n ≤ m ∧ (e.state m).cors cor = .waiting wait ∧
      (e.state (m + 1)).cors cor = .running := by
  have hkept (m : ℕ) : (e.state m).Tracked ∧ (e.state m).Kept :=
    hkeeps.invariant (I := fun s => s.Tracked ∧ s.Kept)
      (fun s op s' out h hop hstep => ⟨(h.1.step hop.1 hstep).1, h.2.step h.1 hop.2 hstep⟩)
      (hnew ▸ ⟨tracked_new openFds clock events, kept_new openFds clock events⟩) m
  have hquiet (m : ℕ) : (e.state m).Quiet :=
    Execution.keeps (e := e) (I := Quiet) (Nat.zero_le m)
      (fun k _ _ hs op s' o _ hstep => hs.step hstep) (hnew ▸ nofun)
  by_cases hends : ∃ m, n ≤ m ∧ (e.state m).cors cor ≠ .waiting wait
  · obtain ⟨m, hm, hne⟩ := hends
    obtain ⟨k, op, o, hk, hsame, -, hstep, hchanged⟩ :=
      e.exists_change (fun s => s.cors cor) hm (hcor ▸ hne)
    have hstill : (e.state k).cors cor = .waiting wait := hsame.trans hcor
    exact ⟨k, hk, hstill, (running_of_step hstill hstep).resolve_left (hcor ▸ hchanged)⟩
  · have hwaits (m : ℕ) (hm : n ≤ m) : (e.state m).cors cor = .waiting wait :=
      not_not.1 fun hne => hends ⟨m, hm, hne⟩
    have hnone (m : ℕ) (hm : n ≤ m) : ¬ (e.state m).Copied cor wait :=
      not_copied_forever hquiet hreturns hfair (fun m => (hkept m).1)
        fun k hk => hwaits k (hm.trans hk)
    have harmed (m : ℕ) (hm : n ≤ m) : (e.state m).Armed cor wait :=
      ((hkept m).2.held cor wait (hwaits m hm)).resolve_right (hnone m hm)
    obtain ⟨m, reported, hm, hinput, hbit⟩ := hreported n fun m hm => (harmed m hm).waits
    obtain ⟨o, hnext⟩ := e.exists_step hinput
    refine absurd ?_ (not_reported_forever hquiet hreturns hfair (n := m + 1)
      (fun k hk => harmed k (hm.trans (Nat.le_of_succ_le hk)))
      fun k hk => hnone k (hm.trans (Nat.le_of_succ_le hk)))
    cases loopStep_of_step rfl hnext with
    | epollWait _ _ heq => exact heq ▸ hbit

theorem run_round [DecidableEq ι] [DecidableEq ε] {s : HookedLoop ι ε} (hplace : s.place = .head)
    (hcur : s.cur = none) (hpending : s.pendingTasks = []) (hbatch : s.timerTasks = []) :
    machine.run s [.swap, .epollWait [], .dispatch] = some (s, [none, none, none]) := by
  have hreports (t : HookedLoop ι ε) : t.Reports [] := ⟨Nat.zero_le _, List.nodup_nil, nofun⟩
  obtain ⟨cors, cur, waits, epoll, callbacks, clock, timer, timerTasks, made, owner, pendingTasks,
    place⟩ := s
  obtain rfl : place = .head := hplace
  obtain rfl : cur = none := hcur
  obtain rfl : pendingTasks = [] := hpending
  obtain rfl : timerTasks = [] := hbatch
  simp [Machine.run, machine, step, hreports]

def oneRead : List (HookOp (Fin 1) (Fin 1)) :=
  [.resume 0, .readHook 5, .swap, .epollWait [.fd 5 ⟨true, false⟩ false], .dispatch, .dispatch,
    .swap, .runTask, .finish, .epollWait [], .dispatch]

theorem resumed_of_fair_oneRead :
    ∃ e : Execution (machine (ι := Fin 1) (ε := Fin 1)),
      e.state 0 = new {5} 0 (fun _ => ⟨0, 0, false, false, true⟩) ∧
      (e.Meets fun s op => s.LeavesNone op ∧ s.KeepsWaits op) ∧ e.WeaklyFair GoesOn ∧
      Returns e ∧ Reported e 5 .inEvent ∧ (e.state 2).cors 0 = .waiting ⟨5, .inEvent, 0, none⟩ ∧
      ∃ m, 2 ≤ m ∧ (e.state m).cors 0 = .waiting ⟨5, .inEvent, 0, none⟩ ∧
        (e.state (m + 1)).cors 0 = .running := by
  have hrun : (machine.run (new {5} 0 fun _ => ⟨0, 0, false, false, true⟩) oneRead).map (fun p =>
      decide (p.1.place = .head ∧ p.1.cur = none ∧ p.1.pendingTasks = [] ∧ p.1.timerTasks = [] ∧
        p.1.epoll.registered 5 = some {})) = some true := by decide +kernel
  obtain ⟨⟨t, outs⟩, hrun, heq⟩ := Option.map_eq_some_iff.1 hrun
  obtain ⟨hplace, hcur, hpending, hbatch, hregistered⟩ := of_decide_eq_true heq
  change t.place = .head at hplace
  change t.cur = none at hcur
  have hcycle := Execution.cycles_of_run (run_round hplace hcur hpending hbatch)
  let e := Execution.cycling hrun rfl hcycle
  have hstate (n : ℕ) : e.state (11 + n * 3) = t := Execution.state_cycling hrun rfl hcycle n
  have hle (n : ℕ) : n ≤ 11 + n * 3 := by omega
  have hkeeps : e.Meets fun s op => s.LeavesNone op ∧ s.KeepsWaits op := by
    refine Execution.meets_cycling hrun rfl hcycle (by decide +kernel) fun k u _ => ?_
    refine ⟨⟨trivial, trivial⟩, fun p _ => ⟨⟨trivial, trivial⟩, fun q hq => ?_⟩⟩
    refine ⟨⟨trivial, ?_⟩, fun _ _ => trivial⟩
    cases loopStep_of_step rfl hq with
    | epollWait _ _ hnext =>
        rw [KeepsWaits, hnext]
        trivial
  have hfair : e.WeaklyFair GoesOn := by
    refine Execution.weaklyFair_cycling hrun rfl hcycle fun k u hu op hop => ?_
    change u = t at hu
    subst hu
    cases op with
    | swap | dispatch => exact Or.inl (by decide)
    | runTask | runTimer => exact Or.inr (by simp [machine, step, hplace])
    | _ => cases hop
  have hreturns : Returns e := by
    refine ⟨fun n => ⟨_, hle n, ?_⟩, fun n _ => ⟨_, hle n, fun hidle => ?_⟩, 11,
      fun m hm cor h => ?_⟩
    · rw [hstate, hcur]
    · have hdraining := hidle.place
      rw [hstate, hplace] at hdraining
      cases hdraining
    · rcases Execution.input_cycling hrun rfl hcycle h with hget | hmem
      · rw [List.getElem?_eq_none hm] at hget
        cases hget
      · simp at hmem
  have hreported : Reported e 5 .inEvent := by
    intro n hwaits
    obtain ⟨mask, hmask, hhas⟩ := hwaits _ (hle n)
    rw [hstate, hregistered] at hmask
    cases hmask
    cases hhas
  have hwaiting : (e.state 2).cors 0 = .waiting ⟨5, .inEvent, 0, none⟩ := by rfl
  exact ⟨e, rfl, hkeeps, hfair, hreturns, hreported, hwaiting,
    resumed_of_fair e rfl hkeeps hfair hreturns 2 0 _ hwaiting hreported⟩

end HookedLoop

end Rocket
