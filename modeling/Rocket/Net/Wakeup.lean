import Mathlib.Data.Fintype.Option
import Rocket.Net.EventLoop

/-!
# Waking the loop up

A loop that waits with work to do has to be woken up: its wakeup descriptor is readable,
or somebody is about to write to it. Two things break this. `onAccept` pushes a task and
wakes nobody up. The handler of the wakeup descriptor runs as a task, behind the swap: what
it reads may belong to a task, or to a stop, that the loop has not seen yet.
-/

namespace Rocket

open Foundation

/-- The loop takes the pending tasks before it waits. -/
def LoopPlace.swapsFirst {α : Type} : LoopPlace α → Bool
  | head | checked | dispatching _ | exited => true
  | _ => false

/-- The loop looks at the stop flag before it waits. -/
def LoopPlace.checksFirst {α : Type} : LoopPlace α → Bool
  | head | dispatching _ | exited => true
  | _ => false

/-- A call that pushes a task and does not wake the loop up. -/
def LoopCall.isSilent {α : Type} : LoopCall α → Bool
  | addTask _ isWakeUp | addCoroutine _ isWakeUp => !isWakeUp
  | onAccept _ => true
  | addEpollEvent _ | deleteEpollEvent _ | stop => false

namespace EventLoop

variable {α τ : Type}

/-- The wakeup descriptor is readable, or a caller has still to write to it. -/
def Owed (s : EventLoop α τ) : Prop := 0 < s.wakeupFd ∨ ∃ caller, s.writing caller = true

/-- A loop that waits with work to do is woken up. -/
def Woken (s : EventLoop α τ) : Prop :=
  s.place = .waiting → s.pendingTasks ≠ [] ∨ s.stopFlag = true → s.Owed

/-- A silent call comes before the loop takes the pending tasks, or when a wakeup is owed
anyway. The handler of the wakeup descriptor reads when there is nothing to do for the
loop, or when somebody will write after it. -/
def WakesUp (s : EventLoop α τ) : LoopOp α τ → Prop
  | .call _ call => call.isSilent = true → s.place.swapsFirst = true ∨ s.Owed
  | .readWakeup _ =>
      s.wakeupFd = 0 ∨ (s.pendingTasks = [] ∧ s.stopFlag = false) ∨
        ∃ caller, s.writing caller = true
  | .wakeup _ | .loop | .epollWait _ => True

/-- Whatever the loop has to do, it will see it before it waits, or it is woken up. -/
structure Awake (s : EventLoop α τ) : Prop where
  tasks : s.pendingTasks ≠ [] → s.place.swapsFirst = true ∨ s.Owed
  stop : s.stopFlag = true → s.place.checksFirst = true ∨ s.Owed

instance [Fintype τ] (s : EventLoop α τ) : Decidable s.Owed :=
  inferInstanceAs (Decidable (0 < s.wakeupFd ∨ ∃ caller, s.writing caller = true))

instance [Fintype τ] (s : EventLoop α τ) : ∀ op, Decidable (s.WakesUp op)
  | .call _ call => inferInstanceAs (Decidable (call.isSilent = true → _ ∨ s.Owed))
  | .readWakeup _ => inferInstanceAs (Decidable (s.wakeupFd = 0 ∨
      (s.pendingTasks = [] ∧ s.stopFlag = false) ∨ ∃ caller, s.writing caller = true))
  | .wakeup _ => isTrue trivial
  | .loop => isTrue trivial
  | .epollWait _ => isTrue trivial

theorem eventfdWrite_pos (count : ℕ) : 0 < eventfdWrite count := by
  unfold eventfdWrite eventfdMax
  split <;> omega

variable {s s' : EventLoop α τ}

theorem Awake.woken (h : s.Awake) : s.Woken := by
  rintro hplace (htasks | hstop)
  · have hswaps := h.tasks htasks
    rw [hplace] at hswaps
    exact hswaps.resolve_left Bool.false_ne_true
  · have hchecks := h.stop hstop
    rw [hplace] at hchecks
    exact hchecks.resolve_left Bool.false_ne_true

theorem writing_eq_false (howed : ¬ s.Owed) (caller : Option τ) : s.writing caller = false :=
  Bool.eq_false_iff.2 fun hwriting => howed (.inr ⟨caller, hwriting⟩)

theorem awake_of_owed (h : s.Owed) : s.Awake := ⟨fun _ => .inr h, fun _ => .inr h⟩

/-- A step that leaves the queue and the flag alone, loses no wakeup, and does not pass the
place where the loop looks at them. -/
theorem Awake.keep (h : s.Awake) (htasks : s'.pendingTasks = s.pendingTasks)
    (hstop : s'.stopFlag = s.stopFlag) (howed : s.Owed → s'.Owed)
    (hswaps : s.place.swapsFirst = true → s'.place.swapsFirst = true)
    (hchecks : s.place.checksFirst = true → s'.place.checksFirst = true) : s'.Awake := by
  constructor
  · intro hne
    rw [htasks] at hne
    exact (h.tasks hne).imp hswaps howed
  · intro hset
    rw [hstop] at hset
    exact (h.stop hset).imp hchecks howed

theorem awake_push_iff (h : s.Awake) (callback : LoopCallback α) :
    (s.push callback).Awake ↔ s.place.swapsFirst = true ∨ s.Owed := by
  constructor
  · intro hpush
    exact hpush.tasks (List.append_ne_nil_of_right_ne_nil _ (List.cons_ne_nil _ _))
  · intro hsees
    exact ⟨fun _ => hsees, h.stop⟩

/-- Reading the wakeup descriptor is harmless iff there is nothing to do, or somebody has
still to write. -/
theorem awake_read_iff {place : LoopPlace α} (hswaps : place.swapsFirst = false)
    (hchecks : place.checksFirst = false) :
    Awake { s with wakeupFd := 0, place := place } ↔
      (s.pendingTasks = [] ∧ s.stopFlag = false) ∨ ∃ caller, s.writing caller = true := by
  have howed : Owed { s with wakeupFd := 0, place := place } ↔
      ∃ caller, s.writing caller = true := or_iff_right (Nat.lt_irrefl 0)
  constructor
  · intro hread
    by_cases hwriting : ∃ caller, s.writing caller = true
    · exact .inr hwriting
    · refine .inl ⟨?_, ?_⟩
      · by_contra hne
        rcases hread.tasks hne with hplace | hread
        · exact Bool.false_ne_true (hswaps.symm.trans hplace)
        · exact hwriting (howed.1 hread)
      · by_contra hset
        rcases hread.stop (Bool.eq_true_of_not_eq_false hset) with hplace | hread
        · exact Bool.false_ne_true (hchecks.symm.trans hplace)
        · exact hwriting (howed.1 hread)
  · rintro (⟨htasks, hstop⟩ | hwriting)
    · exact ⟨fun hne => absurd htasks hne, fun hset => absurd (hstop.symm.trans hset) nofun⟩
    · exact awake_of_owed (howed.2 hwriting)

variable [DecidableEq τ]

theorem owed_setWriting (s : EventLoop α τ) (caller : Option τ) :
    (s.setWriting caller true).Owed :=
  .inr ⟨caller, Function.update_self ..⟩

theorem awake_addTask_iff (h : s.Awake) (caller : Option τ) (callback : LoopCallback α)
    (isWakeUp : Bool) : (s.addTask caller callback isWakeUp).Awake ↔
      ((!isWakeUp) = true → s.place.swapsFirst = true ∨ s.Owed) := by
  cases isWakeUp with
  | true => exact iff_of_true (awake_of_owed (owed_setWriting _ caller)) nofun
  | false => simpa [addTask] using awake_push_iff h callback

theorem awake_call_iff (h : s.Awake) (caller : Option τ) (call : LoopCall α) :
    (s.call caller call).Awake ↔
      (call.isSilent = true → s.place.swapsFirst = true ∨ s.Owed) := by
  cases call with
  | addTask callback isWakeUp => exact awake_addTask_iff h caller callback isWakeUp
  | addCoroutine cor isWakeUp => exact awake_addTask_iff h caller _ isWakeUp
  | onAccept clientFd => exact awake_addTask_iff h caller _ false
  | addEpollEvent event =>
      refine iff_of_true ?_ nofun
      cases caller with
      | none => exact h
      | some t => exact (awake_addTask_iff h (some t) _ true).2 nofun
  | deleteEpollEvent event =>
      refine iff_of_true ?_ nofun
      cases caller with
      | none => exact h
      | some t => exact (awake_addTask_iff h (some t) _ true).2 nofun
  | stop => exact iff_of_true (awake_of_owed (owed_setWriting _ caller)) nofun

/-- From a state in which the loop sees whatever it has to do, a step leads to such a state
iff it meets the condition. -/
theorem Awake.step_iff {op : LoopOp α τ} {out : Unit} (h : s.Awake)
    (hstep : machine.step s op = some (s', out)) : s'.Awake ↔ s.WakesUp op := by
  cases stepped_of_step hstep with
  | call caller call => exact awake_call_iff h caller call
  | wakeup caller => exact iff_of_true (awake_of_owed (.inl (eventfdWrite_pos _))) trivial
  | head hplace =>
      refine iff_of_true ⟨fun _ => .inl ?_, fun hstop => .inl ?_⟩ trivial
      · dsimp only
        split <;> rfl
      · dsimp only at hstop ⊢
        rw [hstop]
        rfl
  | swap hplace =>
      refine iff_of_true ⟨nofun, fun hstop => .inr ?_⟩ trivial
      have hchecks := h.stop hstop
      rw [hplace] at hchecks
      exact hchecks.resolve_left Bool.false_ne_true
  | wait hplace =>
      exact iff_of_true (h.keep rfl rfl id (by rw [hplace]; nofun) (by rw [hplace]; nofun)) trivial
  | take callback tempTasks hplace =>
      exact iff_of_true (h.keep rfl rfl id (by rw [hplace]; nofun) (by rw [hplace]; nofun)) trivial
  | finish task tempTasks hplace =>
      exact iff_of_true (h.keep rfl rfl id (by rw [hplace]; nofun) (by rw [hplace]; nofun)) trivial
  | dispatched hplace => exact iff_of_true ⟨fun _ => .inl rfl, fun _ => .inl rfl⟩ trivial
  | dispatch callback callbacks hplace =>
      exact iff_of_true ⟨fun _ => .inl rfl, fun _ => .inl rfl⟩ trivial
  | epollWait events hplace =>
      exact iff_of_true ⟨fun _ => .inl rfl, fun _ => .inl rfl⟩ trivial
  | readEmpty again tempTasks hplace hcount =>
      refine iff_of_true ?_ (.inl hcount)
      exact h.keep rfl rfl id (by rw [hplace]; nofun) (by rw [hplace]; nofun)
  | readWakeup again tempTasks hplace hcount hwriting =>
      rw [WakesUp, or_iff_right hcount, hplace]
      cases again with
      | true => exact awake_read_iff rfl rfl
      | false => exact awake_read_iff rfl rfl

/-- In every run whose steps all meet the condition, a loop that waits with work to do is
woken up, in every state that is reached. -/
theorem woken_of_run {ops : List (LoopOp α τ)} {outs : List Unit}
    (hok : machine.Meets WakesUp ({} : EventLoop α τ) ops)
    (hrun : machine.run {} ops = some (s, outs)) : s.Woken := by
  have hstart : Awake ({} : EventLoop α τ) := ⟨fun _ => .inl rfl, nofun⟩
  have hawake : s.Awake := hok.run_invariant
    (fun u op u' out hu huok hstep => (hu.step_iff hstep).2 huok) hstart hrun
  exact hawake.woken

/-- A descriptor is added while the loop waits. -/
theorem woken_of_run_added : ∃ s : EventLoop ℕ Unit,
    s.place = .waiting ∧ s.pendingTasks = [some (.addToEpoll ⟨5, {}⟩)] ∧ s.Woken := by
  have hok : machine.Meets WakesUp ({} : EventLoop ℕ Unit)
      [.loop, .loop, .loop, .call (some ()) (.addEpollEvent ⟨5, {}⟩)] := by decide +kernel
  have hrun : (machine.run ({} : EventLoop ℕ Unit)
      [.loop, .loop, .loop, .call (some ()) (.addEpollEvent ⟨5, {}⟩)]).map
        (fun r => (r.1.place, r.1.pendingTasks)) =
      some (.waiting, [some (.addToEpoll ⟨5, {}⟩)]) := by decide +kernel
  rcases Option.map_eq_some_iff.1 hrun with ⟨⟨s, outs⟩, hrun, heq⟩
  obtain ⟨hplace, hpending⟩ := Prod.mk.inj heq
  exact ⟨s, hplace, hpending, woken_of_run hok hrun⟩

/-- What a run has to end in for the claim of `Woken` to fail. -/
theorem exists_not_woken [Fintype τ] {ops : List (LoopOp α τ)} {tasks : List (LoopCallback α)}
    (htasks : tasks ≠ [])
    (hrun : (machine.run ({} : EventLoop α τ) ops).map
      (fun r => (r.1.place, r.1.pendingTasks, decide r.1.Owed)) = some (.waiting, tasks, false)) :
    ∃ s outs, machine.run ({} : EventLoop α τ) ops = some (s, outs) ∧ s.pendingTasks = tasks ∧
      ¬ s.Woken := by
  rcases Option.map_eq_some_iff.1 hrun with ⟨⟨s, outs⟩, hrun, heq⟩
  obtain ⟨hplace, heq⟩ := Prod.mk.inj heq
  obtain ⟨hpending, howed⟩ := Prod.mk.inj heq
  refine ⟨s, outs, hrun, hpending, fun hwoken => of_decide_eq_false howed (hwoken hplace (.inl ?_))⟩
  exact fun hnil => htasks (hpending.symm.trans hnil)

/-- A client that is accepted while the loop waits, and a coroutine that is added before the
handler of the wakeup descriptor reads: the loop waits with a task, and nobody wakes it up. -/
theorem not_woken :
    (∃ s outs, machine.run ({} : EventLoop ℕ Unit)
      [.loop, .loop, .loop, .call (some ()) (.onAccept 7)] = some (s, outs) ∧
        s.pendingTasks = [some (.addClient 7)] ∧ ¬ s.Woken) ∧
    ∃ s outs, machine.run ({} : EventLoop ℕ Unit)
      [.loop, .loop, .loop, .call (some ()) (.addCoroutine 1 true), .wakeup (some ()),
        .epollWait [.wakeUpFd], .loop, .loop, .loop, .loop, .loop, .loop,
        .call (some ()) (.addCoroutine 2 true), .wakeup (some ()), .loop, .readWakeup false,
        .readWakeup true, .loop] = some (s, outs) ∧
        s.pendingTasks = [some (.resume 2)] ∧ ¬ s.Woken :=
  ⟨exists_not_woken (List.cons_ne_nil _ _) (by decide +kernel),
    exists_not_woken (List.cons_ne_nil _ _) (by decide +kernel)⟩

def IsOwn : LoopOp α τ → Prop
  | .loop | .epollWait _ | .readWakeup _ => True
  | .call _ _ | .wakeup _ => False

/-- The loop, left alone, comes to wait with work to do, and nobody wakes it up. -/
def FallsAsleep (s : EventLoop α τ) : Prop :=
  ∃ ops t outs, (∀ op ∈ ops, IsOwn op) ∧ machine.run s ops = some (t, outs) ∧ ¬ t.Woken

theorem FallsAsleep.of_step (op : LoopOp α τ) (hown : IsOwn op)
    (hstep : machine.step s op = some (s', ())) (h : s'.FallsAsleep) : s.FallsAsleep := by
  obtain ⟨ops, t, outs, hops, hrun, hwoken⟩ := h
  refine ⟨op :: ops, t, () :: outs, List.forall_mem_cons.2 ⟨hown, hops⟩, ?_, hwoken⟩
  exact Machine.run_cons hstep hrun

theorem FallsAsleep.of_running {task : LoopTask α} {tempTasks : List (LoopCallback α)}
    (howed : ¬ s.Owed) (hplace : s.place = .running task tempTasks)
    (h : FallsAsleep { s with place := .draining tempTasks }) : s.FallsAsleep := by
  have hwriting := writing_eq_false howed none
  have hcount : s.wakeupFd = 0 := Nat.eq_zero_of_not_pos fun hpos => howed (.inl hpos)
  cases task with
  | readWakeup =>
      refine h.of_step (.readWakeup true) trivial ?_
      simp [machine, step, readWakeup, hplace, hwriting, hcount]
  | addToEpoll | deleteFromEpoll | resume | addClient | handler =>
      refine h.of_step .loop trivial ?_
      simp [machine, step, loop, hplace, hwriting]

/-- The tasks in `temp_tasks` wake nobody up when the counter is zero. -/
theorem fallsAsleep_of_draining {tempTasks : List (LoopCallback α)} (howed : ¬ s.Owed)
    (hwork : s.pendingTasks ≠ [] ∨ s.stopFlag = true) (hplace : s.place = .draining tempTasks) :
    s.FallsAsleep := by
  have hwriting := writing_eq_false howed none
  induction tempTasks generalizing s with
  | nil =>
      refine ⟨[.loop], { s with place := .waiting }, [()], ?_, ?_, ?_⟩
      · simp [IsOwn]
      · simp [Machine.run, machine, step, loop, hplace, hwriting]
      · exact fun hwoken => howed (hwoken rfl hwork)
  | cons callback tempTasks ih =>
      have htake : machine.step s .loop = some ({ s with
          taken := s.taken ++ [callback]
          place := callback.elim (.draining tempTasks) fun task => .running task tempTasks },
            ()) := by
        simp [machine, step, loop, hplace, hwriting]
      refine FallsAsleep.of_step .loop trivial htake ?_
      cases callback with
      | none => exact ih howed hwork rfl hwriting
      | some task => exact FallsAsleep.of_running howed rfl (ih howed hwork rfl hwriting)

theorem fallsAsleep_of_not_awake (h : ¬ s.Awake) : s.FallsAsleep := by
  have howed : ¬ s.Owed := fun howed => h (awake_of_owed howed)
  have hwork : s.pendingTasks ≠ [] ∨ s.stopFlag = true := by
    by_contra hidle
    rw [not_or] at hidle
    exact h ⟨fun hne => absurd hne hidle.1, fun hset => absurd hset hidle.2⟩
  have hwriting := writing_eq_false howed none
  cases hplace : s.place with
  | head | dispatching | exited =>
      exact absurd ⟨fun _ => .inl (by rw [hplace]; rfl), fun _ => .inl (by rw [hplace]; rfl)⟩ h
  | checked =>
      -- the pending tasks will be taken, so it is the stop that is missed
      have hstop : s.stopFlag = true := by
        by_contra hset
        exact h ⟨fun _ => .inl (by rw [hplace]; rfl), fun hset' => absurd hset' hset⟩
      have hswap : machine.step s .loop =
          some ({ s with pendingTasks := [], place := .draining s.pendingTasks }, ()) := by
        simp [machine, step, loop, hplace, hwriting]
      exact FallsAsleep.of_step .loop trivial hswap
        (fallsAsleep_of_draining howed (.inr hstop) rfl)
  | draining tempTasks => exact fallsAsleep_of_draining howed hwork hplace
  | running task tempTasks =>
      exact FallsAsleep.of_running howed hplace (fallsAsleep_of_draining howed hwork rfl)
  | waiting =>
      have hasleep : ¬ s.Woken := fun hwoken => howed (hwoken hplace hwork)
      exact ⟨[], s, [], List.forall_mem_nil _, rfl, hasleep⟩

/-- The condition is exact: after a step that does not meet it, the loop, left alone, falls
asleep. -/
theorem Awake.fallsAsleep {op : LoopOp α τ} {out : Unit} (h : s.Awake)
    (hstep : machine.step s op = some (s', out)) (hop : ¬ s.WakesUp op) : s'.FallsAsleep :=
  fallsAsleep_of_not_awake ((h.step_iff hstep).not.2 hop)

end EventLoop

end Rocket
