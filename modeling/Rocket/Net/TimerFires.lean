import Rocket.Foundation.Execution
import Rocket.Net.TimerArm
import Rocket.Net.TimerBatch

/-!
# Every timer event fires

The timerfd is armed early enough for all pending events (`Timer.Armed`). Once an event is
due, no other one that is added sets the timerfd again, so it expires and remains readable
until `onTimer` is called. This collects the event, and the callbacks that it has collected
are run one after the other. So if the clock goes on, and the event loop calls `onTimer` and
runs the callbacks when it can, a pending event fires, and a repeated one fires again and
again, unless somebody deletes it.
-/

namespace Rocket

open Foundation Machine

namespace TimerRun

variable {ε : Type}

/-- What the event loop does with a timer: it calls `onTimer` when the timerfd is readable,
and runs the callbacks. -/
def Serves (s : TimerRun ε) : TimerOp ε → Prop
  | .onTimer => s.timer.fd.unread = true
  | .runTask => True
  | .addTimerEvent _ | .deleteTimerEvent _ | .advance _ => False

/-- Events are added only while they are not pending, and before they are due. -/
def AddsAhead (s : TimerRun ε) : TimerOp ε → Prop
  | .addTimerEvent e => ¬ s.timer.Pending e ∧ s.clock ≤ (s.timer.events e).arriveTime
  | .deleteTimerEvent _ | .onTimer | .runTask | .advance _ => True

variable [DecidableEq ε]

/-- At the time `n` of an execution, the callback of an event is run. -/
def Fires (r : Execution (machine (ε := ε))) (e : ε) (n : ℕ) : Prop :=
  r.input n = some .runTask ∧ ∃ s, machine.step (r.state n) .runTask = some (s, .fired e)

/-- The event is pending, and arrives at the time `time`. -/
structure Waiting (s : TimerRun ε) (e : ε) (time : ℤ) : Prop where
  ordered : s.timer.Ordered
  armed : s.timer.Armed
  pending : s.timer.Pending e
  isCanceled : (s.timer.events e).isCanceled = false
  hasTask : (s.timer.events e).hasTask = true
  arriveTime : (s.timer.events e).arriveTime = time

/-- The event is due, and `onTimer` is going to be called. -/
structure Overdue (s : TimerRun ε) (e : ε) (time : ℤ) : Prop where
  waiting : s.Waiting e time
  le_clock : time ≤ s.clock
  unread : s.timer.fd.unread = true

variable {s s' : TimerRun ε} {op : TimerOp ε} {out : TimerOutput ε} {e : ε} {time : ℤ}

omit [DecidableEq ε] in
theorem AddsAhead.addsFresh (h : s.AddsAhead op) : s.AddsFresh op := by
  cases op with
  | addTimerEvent => exact h.1
  | deleteTimerEvent | onTimer | runTask | advance => trivial

theorem clock_le_of_step (hstep : machine.step s op = some (s', out)) : s.clock ≤ s'.clock := by
  cases op with
  | addTimerEvent | deleteTimerEvent =>
      cases hstep
      exact le_rfl
  | onTimer =>
      obtain ⟨-, rfl, -⟩ := onTimer_cases hstep
      exact le_rfl
  | runTask =>
      obtain ⟨a, tasks, -, rfl, -⟩ := runTask_cases hstep
      exact le_rfl
  | advance ms =>
      cases hstep
      exact Int.le_add_of_nonneg_right (Int.natCast_nonneg ms)

/-- A pending event remains as it is until `onTimer` is called when it is due. -/
theorem Waiting.kept (h : s.Waiting e time) (hdelete : op ≠ .deleteTimerEvent e)
    (hdue : op = .onTimer → s.clock < time) (hstep : machine.step s op = some (s', out)) :
    s'.timer.Pending e ∧ s'.timer.events e = s.timer.events e := by
  cases op with
  | addTimerEvent a =>
      cases hstep
      exact ⟨Timer.pending_addTimerEvent.2 (Or.inr h.pending), by rw [Timer.events_addTimerEvent]⟩
  | deleteTimerEvent a =>
      cases hstep
      have hne : e ≠ a := fun heq => hdelete (heq ▸ rfl)
      refine ⟨?_, Function.update_of_ne hne _ _⟩
      obtain ⟨p, hp, hpe⟩ := List.mem_map.1 h.pending
      rw [Timer.Pending, h.ordered.entries_deleteTimerEvent]
      exact List.mem_map.2 ⟨p, List.mem_filter.2 ⟨hp, by simpa [hpe] using hne⟩, hpe⟩
  | onTimer =>
      obtain ⟨-, rfl, -⟩ := onTimer_cases hstep
      have hlt : s.clock < (s.timer.events e).arriveTime := h.arriveTime.symm ▸ hdue rfl
      obtain ⟨-, hpending, hevents⟩ := h.ordered.onTimer s.clock
      refine ⟨(hpending e).2 (Or.inl ⟨h.pending, hlt⟩), (hevents e).trans (if_neg fun hc => ?_)⟩
      exact absurd (h.ordered.mem_collected.1 hc.1).2.2 (not_le_of_gt hlt)
  | runTask =>
      obtain ⟨a, tasks, -, rfl, -⟩ := runTask_cases hstep
      exact ⟨h.pending, rfl⟩
  | advance ms =>
      cases hstep
      exact ⟨h.pending, rfl⟩

theorem Waiting.step (h : s.Waiting e time) (hadds : s.AddsAhead op)
    (hdelete : op ≠ .deleteTimerEvent e) (hdue : op = .onTimer → s.clock < time)
    (hstep : machine.step s op = some (s', out)) : s'.Waiting e time := by
  have hordered := ordered_of_step h.ordered hadds.addsFresh hstep
  have harmed := armed_of_step h.armed h.ordered hadds.addsFresh hstep
  obtain ⟨hpending, hevent⟩ := h.kept hdelete hdue hstep
  exact ⟨hordered, harmed, hpending, by rw [hevent, h.isCanceled], by rw [hevent, h.hasTask],
    by rw [hevent, h.arriveTime]⟩

theorem Waiting.step_of_isRepeated (h : s.Waiting e time)
    (hrepeated : (s.timer.events e).isRepeated = true) (hadds : s.AddsAhead op)
    (hdelete : op ≠ .deleteTimerEvent e) (hstep : machine.step s op = some (s', out)) :
    (∃ time', s'.Waiting e time') ∧ (s'.timer.events e).isRepeated = true := by
  by_cases hdue : op = .onTimer → s.clock < time
  · refine ⟨⟨time, h.step hadds hdelete hdue hstep⟩, ?_⟩
    rw [(h.kept hdelete hdue hstep).2, hrepeated]
  · obtain ⟨rfl, hpast⟩ := Classical.not_imp.1 hdue
    have hordered := ordered_of_step h.ordered hadds.addsFresh hstep
    have harmed := armed_of_step h.armed h.ordered hadds.addsFresh hstep
    have hcollected : e ∈ s.timer.collected s.clock :=
      h.ordered.mem_collected.2 ⟨h.pending, h.isCanceled, h.arriveTime.symm ▸ not_lt.1 hpast⟩
    obtain ⟨-, rfl, -⟩ := onTimer_cases hstep
    obtain ⟨-, hpending, hevents⟩ := h.ordered.onTimer s.clock
    have hevent := (hevents e).trans (if_pos ⟨hcollected, hrepeated⟩)
    refine ⟨⟨_, hordered, harmed, (hpending e).2 (Or.inr ⟨hcollected, hrepeated⟩), ?_, ?_, rfl⟩, ?_⟩
    · exact (congrArg TimerEvent.isCanceled hevent).trans h.isCanceled
    · exact (congrArg TimerEvent.hasTask hevent).trans h.hasTask
    · exact (congrArg TimerEvent.isRepeated hevent).trans hrepeated

theorem Waiting.mem_tasks (h : s.Waiting e time) (hdue : time ≤ s.clock)
    (hstep : machine.step s .onTimer = some (s', out)) : e ∈ s'.tasks := by
  obtain ⟨-, rfl, -⟩ := onTimer_cases hstep
  exact h.ordered.mem_collected.2 ⟨h.pending, h.isCanceled, h.arriveTime.symm ▸ hdue⟩

/-- When an event is due, only `onTimer` sets the timerfd. -/
theorem Waiting.fd_eq (h : s.Waiting e time) (hdue : time ≤ s.clock) (hadds : s.AddsAhead op)
    (hop : op ≠ .onTimer) (hstep : machine.step s op = some (s', out)) :
    s'.timer.fd = s.timer.fd ∧ s'.clock = s.clock ∨
      s'.timer.fd = s.timer.fd.expire s'.clock := by
  cases op with
  | addTimerEvent a =>
      cases hstep
      refine Or.inl ⟨?_, rfl⟩
      have hreset : s.timer.isResetTimerfd a = false := by
        cases hentries : s.timer.pendingEvents.entries with
        | nil =>
            have hpending := h.pending
            rw [Timer.Pending, hentries] at hpending
            exact absurd hpending List.not_mem_nil
        | cons p entries =>
            simp only [Timer.isResetTimerfd, hentries, decide_eq_false_iff_not, not_lt]
            calc (s.timer.events p.2).arriveTime ≤ (s.timer.events e).arriveTime :=
                  h.ordered.first_le hentries h.pending
              _ = time := h.arriveTime
              _ ≤ s.clock := hdue
              _ ≤ (s.timer.events a).arriveTime := hadds.2
      simp [Timer.addTimerEvent, hreset]
  | deleteTimerEvent a =>
      cases hstep
      exact Or.inl ⟨rfl, rfl⟩
  | onTimer => exact absurd rfl hop
  | runTask =>
      obtain ⟨a, tasks, -, rfl, -⟩ := runTask_cases hstep
      exact Or.inl ⟨rfl, rfl⟩
  | advance ms =>
      cases hstep
      exact Or.inr rfl

theorem Overdue.step (h : s.Overdue e time) (hadds : s.AddsAhead op)
    (hdelete : op ≠ .deleteTimerEvent e) (hop : op ≠ .onTimer)
    (hstep : machine.step s op = some (s', out)) : s'.Overdue e time := by
  refine ⟨h.waiting.step hadds hdelete (fun heq => absurd heq hop) hstep,
    h.le_clock.trans (clock_le_of_step hstep), ?_⟩
  rcases h.waiting.fd_eq h.le_clock hadds hop hstep with ⟨hfd, -⟩ | hfd
  · rw [hfd, h.unread]
  · rw [hfd, TimerFd.expire]
    split_ifs
    · rfl
    · exact h.unread

/-- The tasks are those of `onTimer`, and `runTask` takes them one by one. -/
theorem tasks_of_step (hop : op ≠ .onTimer) (hop' : op ≠ .runTask)
    (hstep : machine.step s op = some (s', out)) : s'.tasks = s.tasks := by
  cases op with
  | addTimerEvent | deleteTimerEvent | advance =>
      cases hstep
      rfl
  | onTimer => exact absurd rfl hop
  | runTask => exact absurd rfl hop'

theorem tasks_of_step_cons {a : ε} {tasks : List ε} (htasks : s.tasks = a :: tasks)
    (hop : op ≠ .runTask) (hstep : machine.step s op = some (s', out)) : s'.tasks = s.tasks := by
  by_cases hop' : op = .onTimer
  · subst hop'
    rw [(onTimer_cases hstep).1] at htasks
    cases htasks
  · exact tasks_of_step hop' hop hstep

theorem hasTask_of_step (hstep : machine.step s op = some (s', out)) :
    (s'.timer.events e).hasTask = (s.timer.events e).hasTask := by
  cases op with
  | addTimerEvent a =>
      cases hstep
      rw [Timer.events_addTimerEvent]
  | deleteTimerEvent a =>
      cases hstep
      by_cases he : e = a
      · subst he
        simp [Timer.deleteTimerEvent]
      · simp [Timer.deleteTimerEvent, he]
  | onTimer =>
      obtain ⟨-, rfl, -⟩ := onTimer_cases hstep
      exact (flags_onTimer s.timer s.clock e).2
  | runTask =>
      obtain ⟨a, tasks, -, rfl, -⟩ := runTask_cases hstep
      rfl
  | advance ms =>
      cases hstep
      rfl

section Execution

variable {r : Execution (machine (ε := ε))} {n : ℕ}

theorem exists_runTask (hfair : r.WeaklyFair Serves) {I : TimerRun ε → Prop} {a : ε}
    {tasks : List ε} (htasks : (r.state n).tasks = a :: tasks) (hn : I (r.state n))
    (hkeeps : ∀ m, n ≤ m → I (r.state m) → ∀ op s' out, r.input m = some op → op ≠ .onTimer →
      machine.step (r.state m) op = some (s', out) → I s') :
    ∃ m, n ≤ m ∧ r.input m = some .runTask ∧ (r.state m).tasks = a :: tasks ∧ I (r.state m) := by
  refine hfair.exists_input (I := fun s => s.tasks = a :: tasks ∧ I s) ?_ ?_ ⟨htasks, hn⟩
  · rintro s ⟨htasks, -⟩
    refine ⟨trivial, ?_⟩
    simp only [machine, TimerRun.step, htasks, Option.isSome_some]
  · rintro m hm ⟨htasks, hI⟩ op s' out hinput hop hstep
    refine ⟨(tasks_of_step_cons htasks hop hstep).trans htasks, hkeeps m hm hI op s' out hinput ?_
      hstep⟩
    rintro rfl
    rw [(onTimer_cases hstep).1] at htasks
    cases htasks

theorem state_succ_of_runTask {a : ε} {tasks : List ε} {m : ℕ}
    (hinput : r.input m = some .runTask) (htasks : (r.state m).tasks = a :: tasks) :
    r.state (m + 1) = { r.state m with tasks := tasks } ∧
      (((r.state m).timer.events a).hasTask = true → Fires r a m) := by
  obtain ⟨out, hstep⟩ := r.exists_step hinput
  obtain ⟨b, tasks', htasks', hstate, rfl⟩ := runTask_cases hstep
  cases htasks.symm.trans htasks'
  refine ⟨hstate, fun htask => ⟨hinput, r.state (m + 1), ?_⟩⟩
  rwa [if_pos htask] at hstep

theorem clock_le {m : ℕ} (hm : n ≤ m) : (r.state n).clock ≤ (r.state m).clock :=
  Execution.keeps (e := r) (I := fun s => (r.state n).clock ≤ s.clock) hm
    (fun _ _ _ hle _ _ _ _ hstep => hle.trans (clock_le_of_step hstep)) le_rfl

theorem exists_fires_of_tasks (hfair : r.WeaklyFair Serves) {pre post : List ε}
    (htasks : (r.state n).tasks = pre ++ e :: post)
    (htask : ((r.state n).timer.events e).hasTask = true) : ∃ m, n ≤ m ∧ Fires r e m := by
  have hkeeps : ∀ s op s' out, (s.timer.events e).hasTask = true →
      machine.step s op = some (s', out) → (s'.timer.events e).hasTask = true :=
    fun s op s' out hs hstep => (hasTask_of_step hstep).trans hs
  induction pre generalizing n with
  | nil =>
      obtain ⟨m, hm, hinput, htasks', htask'⟩ := exists_runTask hfair
        (I := fun s => (s.timer.events e).hasTask = true) htasks htask
        fun m _ hs op s' out _ _ => hkeeps _ op s' out hs
      exact ⟨m, hm, (state_succ_of_runTask hinput htasks').2 htask'⟩
  | cons a pre ih =>
      obtain ⟨m, hm, hinput, htasks', htask'⟩ := exists_runTask hfair
        (I := fun s => (s.timer.events e).hasTask = true) htasks htask
        fun m _ hs op s' out _ _ => hkeeps _ op s' out hs
      have hstate := (state_succ_of_runTask hinput htasks').1
      obtain ⟨k, hk, hfires⟩ := ih (n := m + 1) (by rw [hstate]; rfl) (by rw [hstate]; exact htask')
      exact ⟨k, hm.trans ((Nat.le_succ m).trans hk), hfires⟩

variable (hfair : r.WeaklyFair Serves) (hadds : r.Meets AddsAhead)
  (hdelete : ∀ m, n ≤ m → r.input m ≠ some (.deleteTimerEvent e))

include hfair hadds hdelete

/-- When the timerfd is readable, `onTimer` is called as soon as the tasks have been run. -/
theorem Overdue.exists_onTimer (h : (r.state n).Overdue e time) :
    ∃ m, n ≤ m ∧ r.input m = some .onTimer := by
  have hkeeps {n : ℕ} (hdelete : ∀ m, n ≤ m → r.input m ≠ some (.deleteTimerEvent e)) :
      ∀ m, n ≤ m → (r.state m).Overdue e time → ∀ op s' out, r.input m = some op →
        op ≠ .onTimer → machine.step (r.state m) op = some (s', out) → s'.Overdue e time :=
    fun m hm hs op s' out hinput hop hstep =>
      hs.step (hadds m op hinput) (fun heq => hdelete m hm (heq ▸ hinput)) hop hstep
  induction htasks : (r.state n).tasks generalizing n with
  | nil =>
      obtain ⟨m, hm, hinput, -⟩ := hfair.exists_input
        (I := fun s => s.tasks = [] ∧ s.Overdue e time) (i := .onTimer)
        (fun s hs => ⟨hs.2.unread, by simp [machine, TimerRun.step, hs.1]⟩)
        (fun m hm hs op s' out hinput hop hstep => by
          refine ⟨?_, hkeeps hdelete m hm hs.2 op s' out hinput hop hstep⟩
          by_cases hop' : op = .runTask
          · subst hop'
            obtain ⟨a, tasks, hcons, -, -⟩ := runTask_cases hstep
            rw [hs.1] at hcons
            cases hcons
          · exact (tasks_of_step hop hop' hstep).trans hs.1) ⟨htasks, h⟩
      exact ⟨m, hm, hinput⟩
  | cons a tasks ih =>
      obtain ⟨m, hm, hinput, htasks', hover⟩ := exists_runTask hfair
        (I := fun s => s.Overdue e time) htasks h (hkeeps hdelete)
      have hstate := (state_succ_of_runTask hinput htasks').1
      have hover' : (r.state (m + 1)).Overdue e time := by
        rw [hstate]
        obtain ⟨⟨h₁, h₂, h₃, h₄, h₅, h₆⟩, hle, hunread⟩ := hover
        exact ⟨⟨h₁, h₂, h₃, h₄, h₅, h₆⟩, hle, hunread⟩
      have hle : n ≤ m + 1 := hm.trans (Nat.le_succ m)
      obtain ⟨k, hk, hk'⟩ := ih (fun j hj => hdelete j (hle.trans hj)) hover' (by rw [hstate])
      exact ⟨k, hle.trans hk, hk'⟩

omit hfair in
/-- As long as `onTimer` is not called when it is due, a pending event remains pending. -/
theorem Waiting.keeps {m : ℕ} (h : (r.state n).Waiting e time) (hm : n ≤ m)
    (hdue : ∀ k, n ≤ k → k < m → r.input k = some .onTimer → (r.state k).clock < time) :
    (r.state m).Waiting e time :=
  Execution.keeps (e := r) (I := fun s => s.Waiting e time) hm
    (fun k hk hlt hs op _ _ hinput hstep =>
      hs.step (hadds k op hinput) (fun heq => hdelete k hk (heq ▸ hinput))
        (fun heq => hdue k hk hlt (heq ▸ hinput)) hstep) h

omit hfair in
/-- If `onTimer` is not called, the timerfd expires. -/
theorem Waiting.exists_overdue (h : (r.state n).Waiting e time)
    (hdue : time ≤ (r.state n).clock) (hnone : ∀ m, n ≤ m → r.input m ≠ some .onTimer)
    (htime : ∀ t, ∃ m, n ≤ m ∧ t ≤ (r.state m).clock) :
    ∃ m, n ≤ m ∧ (r.state m).Overdue e time := by
  have hkept {m : ℕ} (hm : n ≤ m) : (r.state m).Waiting e time :=
    h.keeps hadds hdelete hm fun k hk _ hinput => absurd hinput (hnone k hk)
  have hle {m : ℕ} (hm : n ≤ m) : time ≤ (r.state m).clock := hdue.trans (clock_le hm)
  have hne : (r.state n).timer.pendingEvents.entries ≠ [] := fun hnil => by
    have hpending := h.pending
    rw [Timer.Pending, hnil] at hpending
    exact absurd hpending List.not_mem_nil
  rcases h.armed.unread_or_armed hne with hunread | harmed
  · exact ⟨n, le_rfl, h, hdue, hunread⟩
  obtain ⟨expiry, hexpiry⟩ := Option.isSome_iff_exists.1 harmed
  obtain ⟨m, hm, hclock⟩ := htime (max expiry ((r.state n).clock + 1))
  -- It has expired when the clock has moved and is not below the expiry.
  have hexpires : (r.state m).timer.fd.unread = true ∨
      (r.state m).timer.fd.expiry = some expiry ∧
        ((r.state m).clock = (r.state n).clock ∨ (r.state m).clock < expiry) := by
    refine Execution.keeps (e := r) (I := fun s => s.timer.fd.unread = true ∨
      s.timer.fd.expiry = some expiry ∧ (s.clock = (r.state n).clock ∨ s.clock < expiry)) hm
      (fun k hk _ hs op s' out hinput hstep => ?_) (Or.inr ⟨hexpiry, Or.inl rfl⟩)
    have hop : op ≠ .onTimer := fun heq => hnone k hk (heq ▸ hinput)
    rcases (hkept hk).fd_eq (hle hk) (hadds k op hinput) hop hstep with ⟨hfd, hclock⟩ | hfd
    · rwa [hfd, hclock]
    · rw [hfd, TimerFd.expire]
      rcases hs with hunread | ⟨hsome, -⟩
      · refine Or.inl ?_
        split_ifs
        · rfl
        · exact hunread
      · split_ifs with hpast
        · exact Or.inl rfl
        · refine Or.inr ⟨hsome, Or.inr (not_le.1 fun hge => hpast ⟨expiry, hsome, hge⟩)⟩
  refine ⟨m, hm, hkept hm, hle hm, hexpires.resolve_right ?_⟩
  rintro ⟨-, heq | hlt⟩
  · have hmoved := (le_max_right _ _).trans hclock
    omega
  · exact absurd ((le_max_left _ _).trans hclock) (not_le.2 hlt)

theorem Waiting.exists_collected (h : (r.state n).Waiting e time)
    (htime : ∀ t, ∃ m, t ≤ (r.state m).clock) :
    ∃ m, n ≤ m ∧ r.input m = some .onTimer ∧ time ≤ (r.state m).clock ∧
      (r.state m).Waiting e time := by
  classical
  by_cases hex : ∃ m, n ≤ m ∧ r.input m = some .onTimer ∧ time ≤ (r.state m).clock
  · -- It is pending until it is collected for the first time.
    obtain ⟨hm, hinput, hdue⟩ := Nat.find_spec hex
    refine ⟨Nat.find hex, hm, hinput, hdue, h.keeps hadds hdelete hm fun k hk hlt hk' => ?_⟩
    exact not_le.1 fun hle => Nat.find_min hex hlt ⟨hk, hk', hle⟩
  · have hnone (m : ℕ) (hm : n ≤ m) (hinput : r.input m = some .onTimer) :
        (r.state m).clock < time := not_le.1 fun hle => hex ⟨m, hm, hinput, hle⟩
    have hfrom (k : ℕ) (t : ℤ) : ∃ m, k ≤ m ∧ t ≤ (r.state m).clock := by
      obtain ⟨m, hm⟩ := htime t
      exact ⟨max k m, le_max_left _ _, hm.trans (clock_le (le_max_right _ _))⟩
    obtain ⟨k, hk, hdue⟩ := hfrom n time
    have hkept := h.keeps hadds hdelete hk fun j hj _ => hnone j hj
    have hnone' (m : ℕ) (hm : k ≤ m) : r.input m ≠ some .onTimer := fun hinput =>
      absurd (hdue.trans (clock_le hm)) (not_le.2 (hnone m (hk.trans hm) hinput))
    have hdelete' (m : ℕ) (hm : k ≤ m) := hdelete m (hk.trans hm)
    obtain ⟨j, hj, hover⟩ := hkept.exists_overdue hadds hdelete' hdue hnone' (hfrom k)
    obtain ⟨m, hm, hinput⟩ := hover.exists_onTimer hfair hadds
      fun m hm => hdelete' m (hj.trans hm)
    exact absurd hinput (hnone' m (hj.trans hm))

theorem Waiting.exists_fires (h : (r.state n).Waiting e time)
    (htime : ∀ t, ∃ m, t ≤ (r.state m).clock) :
    ∃ m, n ≤ m ∧ time ≤ (r.state m).clock ∧ Fires r e m := by
  obtain ⟨m, hm, hinput, hdue, hwaiting⟩ := h.exists_collected hfair hadds hdelete htime
  obtain ⟨out, hstep⟩ := r.exists_step hinput
  obtain ⟨pre, post, htasks⟩ := List.append_of_mem (hwaiting.mem_tasks hdue hstep)
  obtain ⟨k, hk, hfires⟩ := exists_fires_of_tasks hfair htasks
    ((hasTask_of_step hstep).trans hwaiting.hasTask)
  have hle := (Nat.le_succ m).trans hk
  exact ⟨k, hm.trans hle, hdue.trans (clock_le hle), hfires⟩

theorem Waiting.exists_fires_again (h : (r.state n).Waiting e time)
    (htime : ∀ t, ∃ m, t ≤ (r.state m).clock)
    (hrepeated : ((r.state n).timer.events e).isRepeated = true) (k : ℕ) :
    ∃ m, k ≤ m ∧ Fires r e m := by
  -- It is still pending at the later of the two times.
  obtain ⟨⟨time', hlater⟩, -⟩ := Execution.keeps (e := r)
    (I := fun s => (∃ time, s.Waiting e time) ∧ (s.timer.events e).isRepeated = true)
    (le_max_left n k) (fun m hm _ hs op s' out hinput hstep => by
      obtain ⟨⟨time, hs⟩, hrepeated⟩ := hs
      exact hs.step_of_isRepeated hrepeated (hadds m op hinput)
        (fun heq => hdelete m hm (heq ▸ hinput)) hstep) ⟨⟨_, h⟩, hrepeated⟩
  obtain ⟨m, hm, -, hfires⟩ := hlater.exists_fires hfair hadds
    (fun m hm => hdelete m ((le_max_left n k).trans hm)) htime
  exact ⟨m, (le_max_right n k).trans hm, hfires⟩

omit hfair hdelete in
theorem waiting_of_pending {clock : ℤ} {events : ε → TimerEvent}
    (hnew : r.state 0 = new clock events) (hpending : (r.state n).timer.Pending e)
    (hcanceled : ((r.state n).timer.events e).isCanceled = false)
    (htask : ((r.state n).timer.events e).hasTask = true) :
    (r.state n).Waiting e ((r.state n).timer.events e).arriveTime := by
  obtain ⟨hordered, harmed⟩ := hadds.invariant
    (I := fun s => s.timer.Ordered ∧ s.timer.Armed)
    (fun s op s' out hs hop hstep => ⟨ordered_of_step hs.1 hop.addsFresh hstep,
      armed_of_step hs.2 hs.1 hop.addsFresh hstep⟩)
    (hnew ▸ ⟨Timer.ordered_new events, Timer.armed_new events⟩) n
  exact ⟨hordered, harmed, hpending, hcanceled, htask, rfl⟩

end Execution

/-- If the clock goes on, events are added before they are due, and the event loop calls
`onTimer` and runs the callbacks when it can, then an event that is pending fires, and not
before it is due, unless it is deleted. A repeated event fires again and again. -/
theorem fired_of_fair {clock : ℤ} {events : ε → TimerEvent}
    (r : Execution (machine (ε := ε))) (hnew : r.state 0 = new clock events)
    (hadds : r.Meets AddsAhead) (htime : ∀ t, ∃ m, t ≤ (r.state m).clock)
    (hfair : r.WeaklyFair Serves) (n : ℕ) (e : ε) (hpending : (r.state n).timer.Pending e)
    (hcanceled : ((r.state n).timer.events e).isCanceled = false)
    (htask : ((r.state n).timer.events e).hasTask = true) :
    (∃ m, n ≤ m ∧ r.input m = some (.deleteTimerEvent e)) ∨
      (∃ m, n ≤ m ∧ ((r.state n).timer.events e).arriveTime ≤ (r.state m).clock ∧ Fires r e m) ∧
        (((r.state n).timer.events e).isRepeated = true → ∀ k, ∃ m, k ≤ m ∧ Fires r e m) := by
  refine or_iff_not_imp_left.2 fun hnone => ?_
  have hdelete (m : ℕ) (hm : n ≤ m) : r.input m ≠ some (.deleteTimerEvent e) :=
    fun hinput => hnone ⟨m, hm, hinput⟩
  have hwaiting := waiting_of_pending hadds hnew hpending hcanceled htask
  exact ⟨hwaiting.exists_fires hfair hadds hdelete htime,
    hwaiting.exists_fires_again hfair hadds hdelete htime⟩

def everyTen (_ : Unit) : TimerEvent := { arriveTime := 10, interval := 10, isRepeated := true }

/-- The event has been run for the `k`-th time. -/
structure Turned (k : ℕ) (s : TimerRun Unit) : Prop where
  clock : s.clock = 10 * k
  tasks : s.tasks = []
  ordered : s.timer.Ordered
  pending : s.timer.Pending ()
  event : s.timer.events () =
    { arriveTime := 10 * k + 10, interval := 10, isRepeated := true }

theorem Turned.exists_next {k : ℕ} {s : TimerRun Unit} (h : Turned k s) :
    ∃ s₁ s₂ s', machine.step s (.advance 10) = some (s₁, .done) ∧
      machine.step s₁ .onTimer = some (s₂, .collected [()]) ∧
      machine.step s₂ .runTask = some (s', .fired ()) ∧ Turned (k + 1) s' := by
  obtain ⟨clock, timer, tasks⟩ := s
  obtain ⟨rfl, rfl, ⟨hkey, hprecedes⟩, hpending, hevent⟩ := h
  let t : Timer Unit := { timer with fd := timer.fd.expire (10 * k + 10) }
  have hordered : t.Ordered := ⟨hkey, hprecedes⟩
  have hmem : () ∈ t.collected (10 * k + 10) := hordered.mem_collected.2
    ⟨hpending, congrArg TimerEvent.isCanceled hevent, (congrArg TimerEvent.arriveTime hevent).le⟩
  have hcollected : t.collected (10 * k + 10) = [()] := by
    have hnodup : (t.collected (10 * k + 10)).Nodup := hordered.collected_nodup
    match hc : t.collected (10 * k + 10) with
    | [] => rw [hc] at hmem; cases hmem
    | [()] => rfl
    | () :: () :: _ => rw [hc] at hnodup; simp at hnodup
  have hrepeated : (t.events ()).isRepeated = true := congrArg TimerEvent.isRepeated hevent
  obtain ⟨hordered', hpending', hevents⟩ := hordered.onTimer (10 * k + 10)
  have harrive : (10 * (k : ℤ) + 10) + 10 = 10 * ((k + 1 : ℕ) : ℤ) + 10 := by omega
  have hevent' : (t.onTimer (10 * k + 10)).1.events () =
      { arriveTime := 10 * ((k + 1 : ℕ) : ℤ) + 10, interval := 10, isRepeated := true } := by
    refine (hevents ()).trans ((if_pos ⟨hmem, hrepeated⟩).trans ?_)
    rw [show t.events () = _ from hevent, TimerEvent.resetArriveTime, ← harrive]
  have honTimer : machine.step ⟨10 * k + 10, t, []⟩ .onTimer =
      some (⟨10 * k + 10, (t.onTimer (10 * k + 10)).1, [()]⟩, .collected [()]) := by
    rw [← hcollected]
    rfl
  have hrunTask : machine.step ⟨10 * k + 10, (t.onTimer (10 * k + 10)).1, [()]⟩ .runTask =
      some (⟨10 * k + 10, (t.onTimer (10 * k + 10)).1, []⟩, .fired ()) := by
    simp only [machine, step, hevent', if_true]
  refine ⟨_, _, _, rfl, honTimer, hrunTask,
    ⟨?_, rfl, hordered', (hpending' ()).2 (Or.inr ⟨hmem, hrepeated⟩), hevent'⟩⟩
  change 10 * (k : ℤ) + 10 = 10 * ((k + 1 : ℕ) : ℤ)
  omega

theorem cycles_turned : Execution.Cycles machine [.advance 10, .onTimer, .runTask] Turned := by
  intro k s h
  obtain ⟨s₁, s₂, s', hadvance, honTimer, hrunTask, hturned⟩ := h.exists_next
  exact ⟨s', _, run_cons hadvance (run_cons honTimer (run_cons hrunTask (run_nil _ _))), hturned⟩

theorem fired_of_fair_everyTen :
    ∃ r : Execution (machine (ε := Unit)), r.state 0 = new 0 everyTen ∧ r.Meets AddsAhead ∧
      (∀ t, ∃ m, t ≤ (r.state m).clock) ∧ r.WeaklyFair Serves ∧ ∀ k, ∃ m, k ≤ m ∧ Fires r () m := by
  let s : TimerRun Unit := ⟨0, (new 0 everyTen).timer.addTimerEvent 0 (), []⟩
  have hrun : machine.run (new 0 everyTen) [.addTimerEvent ()] = some (s, [.done]) := rfl
  have hturned : Turned 0 s :=
    ⟨rfl, rfl, (Timer.ordered_new everyTen).addTimerEvent List.not_mem_nil,
      Timer.pending_addTimerEvent.2 (Or.inl rfl), rfl⟩
  let r := Execution.cycling hrun hturned cycles_turned
  have hstate (k : ℕ) : Turned k (r.state (1 + k * 3)) :=
    Execution.state_cycling hrun hturned cycles_turned k
  have hinputs {n : ℕ} {op : TimerOp Unit} (hinput : r.input n = some op) :
      [TimerOp.addTimerEvent ()][n]? = some op ∨ op ∈ [TimerOp.advance 10, .onTimer, .runTask] :=
    Execution.input_cycling hrun hturned cycles_turned hinput
  have hadds : r.Meets AddsAhead := by
    intro n op hinput
    cases op with
    | addTimerEvent a =>
        rcases hinputs hinput with hget | hmem
        · cases n with
          | zero => exact ⟨List.not_mem_nil, (by decide : (0 : ℤ) ≤ 10)⟩
          | succ n => cases hget
        · simp at hmem
    | deleteTimerEvent | onTimer | runTask | advance => trivial
  have htime (t : ℤ) : ∃ m, t ≤ (r.state m).clock := by
    refine ⟨1 + t.toNat * 3, ?_⟩
    rw [(hstate t.toNat).clock]
    omega
  have hfair : r.WeaklyFair Serves := by
    refine Execution.weaklyFair_cycling hrun hturned cycles_turned fun k u _ op hop => ?_
    cases op with
    | onTimer | runTask => exact Or.inl (by decide)
    | addTimerEvent | deleteTimerEvent | advance => cases hop
  have hone := hstate 0
  rcases fired_of_fair r rfl hadds htime hfair 1 () hone.pending
    (congrArg TimerEvent.isCanceled hone.event) (congrArg TimerEvent.hasTask hone.event) with
    ⟨m, -, hdelete⟩ | ⟨-, hfires⟩
  · rcases hinputs hdelete with hget | hmem
    · exact absurd (List.mem_of_getElem? hget) (by decide)
    · exact absurd hmem (by decide)
  · exact ⟨r, rfl, hadds, htime, hfair, hfires (congrArg TimerEvent.isRepeated hone.event)⟩

end TimerRun

end Rocket
