import Rocket.Coroutine.CoroutineHook
import Rocket.Net.EpollGroup
import Rocket.Net.TimerBatch

/-!
# The callbacks of the waits

An `FdEvent` listens to an event from the time that a coroutine begins to wait for it until
the wait ends. So what `epoll_wait` reports is what some coroutine waits for, and the
copies in the task queue are for waits that have not ended, no two for the same event. A
coroutine is submitted once before it is started, and a timer event knows a coroutine that
has been started. All this is kept as long as no copy is left behind by a wait that ends.
-/

namespace Rocket

open Foundation

def HookTask.key {ι ε : Type} : Option (HookTask ι ε) → Option (ℕ × TriggerEvent)
  | some (.callback c) => some (c.wait.fd, c.wait.ev)
  | _ => none

def HookTask.start {ι ε : Type} : Option (HookTask ι ε) → Option ι
  | some (.resume c) => some c
  | _ => none

theorem HookTask.mem_filterMap_start {ι ε : Type} {tasks : List (Option (HookTask ι ε))} {cor : ι} :
    cor ∈ tasks.filterMap HookTask.start ↔ some (.resume cor) ∈ tasks := by
  rw [List.mem_filterMap]
  constructor
  · rintro ⟨task, hmem, hstart⟩
    rcases task with _ | _ | _ | c | _ <;> cases hstart
    exact hmem
  · intro hmem
    exact ⟨_, hmem, rfl⟩

theorem HookTask.mem_filterMap_key {ι ε : Type} {tasks : List (Option (HookTask ι ε))} {cor : ι}
    {wait : HookWait ε} (hmem : some (.callback ⟨cor, wait⟩) ∈ tasks) :
    (wait.fd, wait.ev) ∈ tasks.filterMap HookTask.key :=
  List.mem_filterMap.2 ⟨_, hmem, rfl⟩

theorem HookTask.filterMap_key_callback {ι ε : Type} (c : WaitCallback ι ε)
    (tasks : List (Option (HookTask ι ε))) :
    (some (.callback c) :: tasks).filterMap HookTask.key =
      (c.wait.fd, c.wait.ev) :: tasks.filterMap HookTask.key := rfl

theorem HookTask.filterMap_start_resume {ι ε : Type} (c : ι)
    (tasks : List (Option (HookTask ι ε))) :
    (some (.resume c) :: tasks).filterMap HookTask.start =
      c :: tasks.filterMap HookTask.start := rfl

def ReadyBit.key : ReadyBit → Option (ℕ × TriggerEvent)
  | .event fd ev => some (fd, ev)
  | _ => none

theorem ReadyBit.filterMap_key_event (fd : ℕ) (ev : TriggerEvent) (bits : List ReadyBit) :
    (.event fd ev :: bits).filterMap ReadyBit.key = (fd, ev) :: bits.filterMap ReadyBit.key := rfl

namespace ReadyFd

theorem exists_of_event_mem {event : ReadyFd} {fd : ℕ} {ev : TriggerEvent}
    (h : .event fd ev ∈ event.bits) :
    ∃ events epollErr, event = .fd fd events epollErr ∧ events.has ev = true := by
  cases event with
  | timerFd => cases List.mem_singleton.1 h
  | wakeUpFd => cases List.mem_singleton.1 h
  | fd n events epollErr =>
      rw [bits, List.mem_append, List.mem_append] at h
      rcases h with (h | h) | h
      · split_ifs at h with hin
        · cases List.mem_singleton.1 h
          exact ⟨events, epollErr, rfl, hin⟩
        · cases h
      · split_ifs at h with hout
        · cases List.mem_singleton.1 h
          exact ⟨events, epollErr, rfl, hout⟩
        · cases h
      · split_ifs at h
        · cases List.mem_singleton.1 h
        · cases h

theorem nodup_keys (event : ReadyFd) : (event.bits.filterMap ReadyBit.key).Nodup := by
  cases event with
  | timerFd => exact List.nodup_nil
  | wakeUpFd => exact List.nodup_nil
  | fd n events epollErr =>
      rw [bits]
      split_ifs <;> simp [List.filterMap_cons, ReadyBit.key]

/-- The bits of descriptors that are reported together are for different events. -/
theorem nodup_keys_flatMap {events : List ReadyFd} (h : (events.filterMap fd?).Nodup) :
    ((events.flatMap bits).filterMap ReadyBit.key).Nodup := by
  induction events with
  | nil => exact List.nodup_nil
  | cons event events ih =>
      rw [List.flatMap_cons, List.filterMap_append]
      have hrest := h.sublist ((List.sublist_cons_self event events).filterMap fd?)
      refine List.nodup_append.2 ⟨event.nodup_keys, ih hrest, fun a ha b hb hab => ?_⟩
      subst hab
      obtain ⟨bit, hbit, hkey⟩ := List.mem_filterMap.1 ha
      obtain ⟨bit', hbit', hkey'⟩ := List.mem_filterMap.1 hb
      obtain ⟨event', hevent', hmem⟩ := List.mem_flatMap.1 hbit'
      obtain ⟨fd, ev⟩ := a
      have hevent (b : ReadyBit) (hb : b.key = some (fd, ev)) : b = .event fd ev := by
        cases b <;> cases hb
        rfl
      obtain ⟨_, _, rfl, _⟩ := exists_of_event_mem (hevent bit hkey ▸ hbit)
      obtain ⟨_, _, rfl, _⟩ := exists_of_event_mem (hevent bit' hkey' ▸ hmem)
      change (fd :: events.filterMap fd?).Nodup at h
      exact (List.nodup_cons.1 h).1 (List.mem_filterMap.2 ⟨_, hevent', rfl⟩)

end ReadyFd

namespace FdCallbacks

variable {ι ε : Type} (f : FdCallbacks ι ε) (c : WaitCallback ι ε)

theorem handler_listen (ev ev' : TriggerEvent) :
    (f.listen ev c).handler ev' = if ev' = ev then some c else f.handler ev' := by
  cases ev <;> cases ev' <;> rfl

/-- The error callback of `toEpoll` is empty. -/
theorem errorCallback_listen (ev : TriggerEvent) : (f.listen ev c).errorCallback = none := by
  cases ev <;> exact ite_self none

end FdCallbacks

namespace HookedLoop

variable {ι ε : Type}

def tasks (s : HookedLoop ι ε) : List (Option (HookTask ι ε)) :=
  s.place.tempTasks ++ s.pendingTasks

/-- The callback of an event is that of a coroutine which waits for it. -/
def Current (s : HookedLoop ι ε) (fd : ℕ) (ev : TriggerEvent) : Prop :=
  ∃ cor wait, (s.callbacks fd).handler ev = some ⟨cor, wait⟩ ∧ s.cors cor = .waiting wait ∧
    wait.fd = fd ∧ wait.ev = ev

/-- The epoll set and the `FdEvent`s: whatever may be reported has a current callback. -/
structure Mapped (s : HookedLoop ι ε) : Prop where
  grouped : s.epoll.Grouped
  listens : ∀ fd ev, (s.epoll.fdGroup fd).has ev = true → s.Current fd ev
  bits : ∀ fd ev, .event fd ev ∈ s.place.bits → s.Current fd ev
  noError : ∀ fd, (s.callbacks fd).errorCallback = none

/-- The copies in the queue: each of them is for the wait that its coroutine is in, and no
two are for the same event. -/
structure Queued (s : HookedLoop ι ε) : Prop where
  copies : ∀ cor wait, some (.callback ⟨cor, wait⟩) ∈ s.tasks → s.cors cor = .waiting wait
  keys : (s.tasks.filterMap HookTask.key ++ s.place.bits.filterMap ReadyBit.key).Nodup
  drained : ∀ tempTasks, s.place = .draining tempTasks →
    s.pendingTasks.filterMap HookTask.key = []
  starts : (s.tasks.filterMap HookTask.start).Nodup
  submitted : ∀ cor, some (.resume cor) ∈ s.tasks → s.cors cor = .submitted

/-- The timer events: those whose callbacks have still to run are not deleted, and they
resume coroutines that have been started. -/
structure Timed (s : HookedLoop ι ε) : Prop where
  live : ∀ e ∈ s.timerTasks, (s.owner e).isSome = true → (s.timer.events e).isCanceled = false
  owned : ∀ e cor, s.owner e = some cor → (s.cors cor).isStarted = true
  cur : ∀ cor, s.cur = some cor → (s.cors cor).isStarted = true ∧ s.place.bits = []

structure Tracked (s : HookedLoop ι ε) : Prop where
  mapped : s.Mapped
  queued : s.Queued
  timed : s.Timed

section Steps

variable {s s' : HookedLoop ι ε}

theorem Current.of_cors {fd : ℕ} {ev : TriggerEvent} (h : s.Current fd ev)
    (hcallbacks : (s'.callbacks fd).handler ev = (s.callbacks fd).handler ev)
    (hwaiting : ∀ cor wait, (s.callbacks fd).handler ev = some ⟨cor, wait⟩ →
      s.cors cor = .waiting wait → s'.cors cor = .waiting wait) : s'.Current fd ev := by
  obtain ⟨cor, wait, hhandler, hcor, hfd, hev⟩ := h
  exact ⟨cor, wait, hcallbacks.trans hhandler, hwaiting cor wait hhandler hcor, hfd, hev⟩

theorem tasks_addTask (task : Option (HookTask ι ε)) : (s.addTask task).tasks = s.tasks ++ [task] :=
  (List.append_assoc ..).symm

theorem Queued.addTask {task : Option (HookTask ι ε)} (h : s.Queued)
    (hkey : HookTask.key task = none)
    (hstart : ∀ cor, task = some (.resume cor) →
      s.cors cor = .submitted ∧ some (.resume cor) ∉ s.tasks) : (s.addTask task).Queued := by
  have hcallback (cor : ι) (wait : HookWait ε) : some (.callback ⟨cor, wait⟩) ≠ task := by
    rintro rfl
    cases hkey
  refine ⟨fun cor wait hmem => ?_, ?_, fun tempTasks hplace => ?_, ?_, fun cor hmem => ?_⟩
  · rw [tasks_addTask, List.mem_append, List.mem_singleton] at hmem
    exact h.copies cor wait (hmem.resolve_right (hcallback cor wait))
  · rw [tasks_addTask, List.filterMap_append, List.filterMap_cons_none hkey, List.filterMap_nil,
      List.append_nil]
    exact h.keys
  · have hpending : (s.addTask task).pendingTasks = s.pendingTasks ++ [task] := rfl
    rw [hpending, List.filterMap_append, h.drained tempTasks hplace,
      List.filterMap_cons_none hkey]
    rfl
  · rw [tasks_addTask, List.filterMap_append]
    refine List.nodup_append.2 ⟨h.starts, ?_, fun a ha b hb hab => ?_⟩
    · cases hone : HookTask.start task with
      | none => rw [List.filterMap_cons_none hone]; exact List.nodup_nil
      | some c => rw [List.filterMap_cons_some hone]; exact List.nodup_singleton c
    · have htask := List.mem_singleton.1 (HookTask.mem_filterMap_start.1 hb)
      exact (hstart b htask.symm).2 (hab ▸ HookTask.mem_filterMap_start.1 ha)
  · rw [tasks_addTask, List.mem_append, List.mem_singleton] at hmem
    rcases hmem with hmem | heq
    · exact h.submitted cor hmem
    · exact (hstart cor heq.symm).1

theorem Tracked.addTask {task : Option (HookTask ι ε)} (h : s.Tracked)
    (hkey : HookTask.key task = none)
    (hstart : ∀ cor, task = some (.resume cor) →
      s.cors cor = .submitted ∧ some (.resume cor) ∉ s.tasks) : (s.addTask task).Tracked :=
  ⟨⟨h.mapped.grouped, h.mapped.listens, h.mapped.bits, h.mapped.noError⟩,
    h.queued.addTask hkey hstart, ⟨h.timed.live, h.timed.owned, h.timed.cur⟩⟩

theorem Queued.of_cors [DecidableEq ι] {cor : ι} {state : HookedCor ε} (h : s.Queued)
    (hplace : s'.place = s.place) (hpending : s'.pendingTasks = s.pendingTasks)
    (hcors : s'.cors = Function.update s.cors cor state)
    (hcopy : ∀ wait, s.cors cor = .waiting wait → some (.callback ⟨cor, wait⟩) ∉ s.tasks)
    (hstart : some (.resume cor) ∉ s.tasks) : s'.Queued := by
  have htasks : s'.tasks = s.tasks := by
    rw [tasks, tasks, hplace, hpending]
  refine ⟨fun c wait hmem => ?_, ?_, ?_, ?_, fun c hmem => ?_⟩
  · rw [htasks] at hmem
    have hwait := h.copies c wait hmem
    have hne : c ≠ cor := by
      rintro rfl
      exact hcopy wait hwait hmem
    rw [hcors, Function.update_of_ne hne, hwait]
  · rw [htasks, hplace]
    exact h.keys
  · rw [hplace, hpending]
    exact h.drained
  · rw [htasks]
    exact h.starts
  · rw [htasks] at hmem
    have hne : c ≠ cor := by
      rintro rfl
      exact hstart hmem
    rw [hcors, Function.update_of_ne hne, h.submitted c hmem]

/-- The `FdEvent`s do not need a coroutine that does not wait. -/
theorem Mapped.of_cors [DecidableEq ι] {cor : ι} {state : HookedCor ε} (h : s.Mapped)
    (hplace : s'.place = s.place) (hepoll : s'.epoll = s.epoll)
    (hcallbacks : s'.callbacks = s.callbacks) (hcors : s'.cors = Function.update s.cors cor state)
    (hnot : (s.cors cor).wait? = none) : s'.Mapped := by
  have hcurrent (fd : ℕ) (ev : TriggerEvent) (hcurrent : s.Current fd ev) : s'.Current fd ev := by
    refine hcurrent.of_cors (by rw [hcallbacks]) fun c w _ hw => ?_
    have hne : c ≠ cor := by
      rintro rfl
      rw [hw] at hnot
      cases hnot
    rw [hcors, Function.update_of_ne hne, hw]
  refine ⟨hepoll ▸ h.grouped, fun fd ev hhas => ?_, fun fd ev hmem => ?_, fun fd => ?_⟩
  · exact hcurrent fd ev (h.listens fd ev (hepoll ▸ hhas))
  · exact hcurrent fd ev (h.bits fd ev (hplace ▸ hmem))
  · rw [hcallbacks]
    exact h.noError fd

theorem Timed.of_cors [DecidableEq ι] {cor : ι} {state : HookedCor ε} (h : s.Timed)
    (hcors : s'.cors = Function.update s.cors cor state)
    (hstarted : (s.cors cor).isStarted = true → state.isStarted = true)
    (hlive : ∀ e ∈ s'.timerTasks, (s'.owner e).isSome = true →
      (s'.timer.events e).isCanceled = false)
    (howner : s'.owner = s.owner)
    (hcur : ∀ c, s'.cur = some c → (s'.cors c).isStarted = true ∧ s'.place.bits = []) :
    s'.Timed := by
  refine ⟨hlive, fun e c hown => ?_, hcur⟩
  rw [howner] at hown
  have hold := h.owned e c hown
  rw [hcors]
  by_cases heq : c = cor
  · subst heq
    rw [Function.update_self]
    exact hstarted hold
  · rwa [Function.update_of_ne heq]

section Resume

variable [DecidableEq ι] [DecidableEq ε] {cor : ι} {wait : HookWait ε}

/-- A hooked call that goes on takes its event off the `FdEvent` and deletes its timeout. -/
theorem Tracked.goOn (h : s.Tracked) (hcor : s.cors cor = .waiting wait)
    (hcopy : some (.callback ⟨cor, wait⟩) ∉ s.tasks) (htimer : ∀ e ∈ wait.timer, e ∉ s.timerTasks)
    (hbits : s.place.bits = []) : (s.goOn cor wait).Tracked := by
  have hstart : some (.resume cor) ∉ s.tasks := fun hmem => by
    cases hcor.symm.trans (h.queued.submitted cor hmem)
  refine ⟨⟨h.mapped.grouped.listen wait.fd wait.ev false, fun fd ev hhas => ?_, ?_,
    h.mapped.noError⟩, ?_, ?_⟩
  · have hgroup : ((s.epoll.listen wait.fd wait.ev false).1.fdGroup fd).has ev = true := hhas
    rw [EpollRun.has_listen] at hgroup
    split_ifs at hgroup with hsame
    refine (h.mapped.listens fd ev hgroup).of_cors rfl fun c w hhandler hw => ?_
    have hne : c ≠ cor := by
      rintro rfl
      cases hcor.symm.trans hw
      obtain ⟨c', w', hhandler', _, hfd, hev⟩ := h.mapped.listens fd ev hgroup
      cases hhandler.symm.trans hhandler'
      exact hsame ⟨hfd.symm, hev.symm⟩
    exact (Function.update_of_ne hne ..).trans hw
  · have hbits' : (s.goOn cor wait).place.bits = [] := hbits
    rw [hbits']
    exact fun fd ev hmem => absurd hmem List.not_mem_nil
  · refine h.queued.of_cors rfl rfl rfl (fun w hw => ?_) hstart
    cases hcor.symm.trans hw
    exact hcopy
  · refine h.timed.of_cors rfl (fun _ => rfl) (fun e he hown => ?_) rfl fun c hc => ?_
    · have hold := h.timed.live e he hown
      cases htimeout : wait.timer with
      | none => rwa [HookedLoop.goOn, htimeout]
      | some e' =>
          have hne : e ≠ e' := by
            rintro rfl
            exact htimer e htimeout he
          rw [HookedLoop.goOn, htimeout]
          exact (congrArg TimerEvent.isCanceled (Function.update_of_ne hne ..)).trans hold
    · cases hc
      have hcors : (s.goOn cor wait).cors cor = .running := Function.update_self ..
      rw [hcors]
      exact ⟨rfl, hbits⟩

/-- `Resume` leaves nothing behind if no copy is left for the wait that it ends. -/
theorem Tracked.resume (h : s.Tracked)
    (hcopy : ∀ wait, s.cors cor = .waiting wait →
      some (.callback ⟨cor, wait⟩) ∉ s.tasks ∧ ∀ e ∈ wait.timer, e ∉ s.timerTasks)
    (hstart : some (.resume cor) ∉ s.tasks) (hbits : s.place.bits = []) :
    (s.resume cor).Tracked := by
  have hrunning (hnot : (s.cors cor).wait? = none) : Tracked { s with
      cors := Function.update s.cors cor .running, cur := some cor } := by
    have hwaiting (wait : HookWait ε) : s.cors cor ≠ .waiting wait := fun hw => by
      rw [hw] at hnot
      cases hnot
    refine ⟨h.mapped.of_cors rfl rfl rfl rfl hnot, ?_, ?_⟩
    · exact h.queued.of_cors rfl rfl rfl (fun w hw => absurd hw (hwaiting w)) hstart
    · refine h.timed.of_cors rfl (fun _ => rfl) h.timed.live rfl fun c hc => ?_
      cases hc
      simp only [Function.update_self]
      exact ⟨rfl, hbits⟩
  have hagain (hstarted : (s.cors cor).isStarted = true) :
      Tracked { s with cur := some cor } := by
    refine ⟨⟨h.mapped.grouped, h.mapped.listens, h.mapped.bits, h.mapped.noError⟩,
      ⟨h.queued.copies, h.queued.keys, h.queued.drained, h.queued.starts, h.queued.submitted⟩,
      ⟨h.timed.live, h.timed.owned, fun c hc => ?_⟩⟩
    cases hc
    exact ⟨hstarted, hbits⟩
  rw [HookedLoop.resume]
  cases hcor : s.cors cor with
  | created => exact hrunning (by rw [hcor]; rfl)
  | submitted => exact hrunning (by rw [hcor]; rfl)
  | waiting wait =>
      obtain ⟨hleft, htimer⟩ := hcopy wait hcor
      exact h.goOn hcor hleft htimer hbits
  | running => exact hagain (by rw [hcor]; rfl)
  | finished => exact hagain (by rw [hcor]; rfl)

end Resume

theorem Tracked.finish [DecidableEq ι] {cor : ι} (h : s.Tracked) (hcor : s.cors cor = .running) :
    Tracked { s with cors := Function.update s.cors cor .finished, cur := none } := by
  have hstart : some (.resume cor) ∉ s.tasks := fun hmem => by
    cases hcor.symm.trans (h.queued.submitted cor hmem)
  refine ⟨h.mapped.of_cors rfl rfl rfl rfl (by rw [hcor]; rfl), ?_, ?_⟩
  · exact h.queued.of_cors rfl rfl rfl (fun w hw => by cases hcor.symm.trans hw) hstart
  · exact h.timed.of_cors rfl (fun _ => rfl) h.timed.live rfl fun c hc => by cases hc

theorem Tracked.of_timer {clock : ℤ} {timer : Timer ε} {timerTasks : List ε} (h : s.Tracked)
    (hlive : ∀ e ∈ timerTasks, (s.owner e).isSome = true → (timer.events e).isCanceled = false) :
    Tracked { s with clock := clock, timer := timer, timerTasks := timerTasks } :=
  ⟨⟨h.mapped.grouped, h.mapped.listens, h.mapped.bits, h.mapped.noError⟩,
    ⟨h.queued.copies, h.queued.keys, h.queued.drained, h.queued.starts, h.queued.submitted⟩,
    ⟨hlive, h.timed.owned, h.timed.cur⟩⟩

/-- The epoll set may change, as long as the `FdEvent`s listen to nothing new. -/
theorem Tracked.of_epoll {epoll : EpollRun} (h : s.Tracked) (hgrouped : epoll.Grouped)
    (hlistens : ∀ fd ev, (epoll.fdGroup fd).has ev = true → (s.epoll.fdGroup fd).has ev = true) :
    Tracked { s with epoll := epoll } :=
  ⟨⟨hgrouped, fun fd ev hhas => h.mapped.listens fd ev (hlistens fd ev hhas), h.mapped.bits,
      h.mapped.noError⟩,
    ⟨h.queued.copies, h.queued.keys, h.queued.drained, h.queued.starts, h.queued.submitted⟩,
    ⟨h.timed.live, h.timed.owned, h.timed.cur⟩⟩

theorem Tracked.deleteEpollEvent (h : s.Tracked) (event : FdEvent) :
    Tracked { s with epoll := (s.epoll.deleteFromEpoll event).1 } := by
  refine h.of_epoll (h.mapped.grouped.deleteFromEpoll event) fun fd ev hhas => ?_
  rwa [EpollRun.fdGroup_deleteFromEpoll] at hhas

theorem Tracked.opened {epoll : EpollRun} {fd : ℕ} (h : s.Tracked)
    (hopened : s.epoll.opened fd = some epoll) : Tracked { s with epoll := epoll } := by
  refine h.of_epoll (h.mapped.grouped.opened hopened).1 fun fd ev hhas => ?_
  obtain ⟨_, heq⟩ := Option.ite_none_left_eq_some.1 hopened
  cases heq
  exact hhas

theorem Tracked.close (h : s.Tracked) (fd : ℕ) : Tracked { s with epoll := s.epoll.close fd } := by
  refine h.of_epoll (h.mapped.grouped.close fd) fun fd' ev hhas => ?_
  rw [EpollRun.close] at hhas
  split_ifs at hhas <;> exact hhas

theorem Tracked.clear (h : s.Tracked) (fd : ℕ) : (s.clear fd).Tracked := by
  refine h.of_epoll (h.mapped.grouped.cleared fd _) fun fd' ev hhas => ?_
  rw [EpollRun.fdGroup_deleteFromEpoll] at hhas
  by_cases hfd : fd' = fd
  · subst hfd
    simp only [Function.update_self] at hhas
    cases ev <;> cases hhas
  · simpa only [Function.update_of_ne hfd] using hhas

theorem Tracked.addTimerEvent (h : s.Tracked) (e : ε) : (s.addTimerEvent e).Tracked := by
  refine h.of_timer fun e' he' hown => ?_
  rw [Timer.events_addTimerEvent]
  exact h.timed.live e' he' hown

section Timers

variable [DecidableEq ε]

/-- A timer event that has been made is not canceled, and resumes the coroutine that has
made it. -/
theorem Tracked.newTimerEvent (h : s.Tracked) (e : ε) (interval : ℤ) (isRepeated resumes : Bool) :
    (s.newTimerEvent e interval isRepeated resumes).Tracked := by
  refine ⟨⟨h.mapped.grouped, h.mapped.listens, h.mapped.bits, h.mapped.noError⟩,
    ⟨h.queued.copies, h.queued.keys, h.queued.drained, h.queued.starts, h.queued.submitted⟩,
    ⟨fun e' he' hown => ?_, fun e' cor hown => ?_, h.timed.cur⟩⟩
  · by_cases heq : e' = e
    · subst heq
      simp [HookedLoop.newTimerEvent, TimerEvent.new, TimerEvent.resetArriveTime]
    · simp only [HookedLoop.newTimerEvent, Function.update_of_ne heq] at hown ⊢
      exact h.timed.live e' he' hown
  · by_cases heq : e' = e
    · subst heq
      simp only [HookedLoop.newTimerEvent, Function.update_self] at hown
      split_ifs at hown
      exact (h.timed.cur cor hown).1
    · simp only [HookedLoop.newTimerEvent, Function.update_of_ne heq] at hown
      exact h.timed.owned e' cor hown

theorem Tracked.deleteTimerEvent {e : ε} (h : s.Tracked)
    (hleft : (s.owner e).isSome = true → e ∉ s.timerTasks) : (s.deleteTimerEvent e).Tracked := by
  refine h.of_timer fun e' he' hown => ?_
  have hne : e' ≠ e := by
    rintro rfl
    exact hleft hown he'
  exact (congrArg TimerEvent.isCanceled (Function.update_of_ne hne ..)).trans
    (h.timed.live e' he' hown)

/-- `onTimer` collects no event that is canceled. -/
theorem Tracked.onTimer (h : s.Tracked) : Tracked { s with
    timer := (s.timer.onTimer s.clock).1, timerTasks := (s.timer.onTimer s.clock).2 } := by
  refine h.of_timer fun e he _ => ?_
  rw [(TimerRun.flags_onTimer s.timer s.clock e).1]
  have hcollected : e ∈ s.timer.collected s.clock := he
  simpa using (List.mem_filter.1 hcollected).2

end Timers

section Hooks

variable [DecidableEq ι] [DecidableEq ε]

theorem Tracked.hook {fd : ℕ} {ev : TriggerEvent} {timer : Option ε} (h : s.Tracked)
    (hhook : s.hook fd ev timer = some s') : s'.Tracked := by
  rcases Option.bind_eq_some_iff.1 hhook with ⟨cor, hcur, hbody⟩
  obtain ⟨hcor, heq⟩ := Option.ite_none_right_eq_some.1 hbody
  cases heq
  have hbits := (h.timed.cur cor hcur).2
  have hstart : some (.resume cor) ∉ s.tasks := fun hmem => by
    cases hcor.symm.trans (h.queued.submitted cor hmem)
  refine ⟨⟨h.mapped.grouped.listen fd ev true, fun fd' ev' hhas => ?_, ?_, fun fd' => ?_⟩, ?_, ?_⟩
  · have hgroup : ((s.epoll.listen fd ev true).1.fdGroup fd').has ev' = true := hhas
    rw [EpollRun.has_listen] at hgroup
    by_cases hsame : fd' = fd ∧ ev' = ev
    · obtain ⟨rfl, rfl⟩ := hsame
      refine ⟨cor, ⟨fd', ev', s.waits, timer⟩, ?_, Function.update_self .., rfl, rfl⟩
      simp only [Function.update_self, FdCallbacks.handler_listen, if_true]
    · rw [if_neg hsame] at hgroup
      refine (h.mapped.listens fd' ev' hgroup).of_cors ?_ fun c w _ hw => ?_
      · by_cases hfd : fd' = fd
        · subst hfd
          have hev : ev' ≠ ev := fun hev => hsame ⟨rfl, hev⟩
          simp only [Function.update_self, FdCallbacks.handler_listen, if_neg hev]
        · simp only [Function.update_of_ne hfd]
      · have hne : c ≠ cor := by
          rintro rfl
          cases hcor.symm.trans hw
        exact (Function.update_of_ne hne ..).trans hw
  · change ∀ fd ev, ReadyBit.event fd ev ∈ s.place.bits → _
    rw [hbits]
    exact fun fd ev hmem => absurd hmem List.not_mem_nil
  · by_cases hfd : fd' = fd
    · subst hfd
      simp only [Function.update_self, FdCallbacks.errorCallback_listen]
    · simp only [Function.update_of_ne hfd]
      exact h.mapped.noError fd'
  · exact h.queued.of_cors rfl rfl rfl (fun w hw => by cases hcor.symm.trans hw) hstart
  · exact h.timed.of_cors rfl (fun _ => rfl) h.timed.live rfl fun c hc => by cases hc

theorem Tracked.connectHook {fd : ℕ} {e : ε} (h : s.Tracked)
    (hhook : s.connectHook fd e = some s') : s'.Tracked := by
  obtain ⟨_, hbody⟩ := Option.ite_none_left_eq_some.1 hhook
  exact ((h.newTimerEvent e 10000 false true).addTimerEvent e).hook hbody

theorem Tracked.addCoroutine {cor : ι} (h : s.Tracked) (hcor : s.cors cor = .created) :
    (s.addCoroutine cor).Tracked := by
  have hstart : some (.resume cor) ∉ s.tasks := fun hmem => by
    cases hcor.symm.trans (h.queued.submitted cor hmem)
  have hsubmitted : Tracked { s with cors := Function.update s.cors cor .submitted } := by
    refine ⟨h.mapped.of_cors rfl rfl rfl rfl (by rw [hcor]; rfl),
      h.queued.of_cors rfl rfl rfl (fun w hw => by cases hcor.symm.trans hw) hstart,
      h.timed.of_cors rfl (fun hold => ?_) h.timed.live rfl fun c hc => ?_⟩
    · rw [hcor] at hold
      cases hold
    · obtain ⟨hstarted, hbits⟩ := h.timed.cur c hc
      have hne : c ≠ cor := by
        rintro rfl
        rw [hcor] at hstarted
        cases hstarted
      refine ⟨?_, hbits⟩
      simp only [Function.update_of_ne hne]
      exact hstarted
  have hadd : s.addCoroutine cor =
      { s with cors := Function.update s.cors cor .submitted }.addTask (some (.resume cor)) := by
    rw [HookedLoop.addCoroutine, if_pos hcor]
  rw [hadd]
  refine hsubmitted.addTask rfl fun c heq => ?_
  cases heq
  exact ⟨Function.update_self .., hstart⟩

end Hooks

section Loop

theorem Tracked.swap (h : s.Tracked) (hplace : s.place = .head) (hcur : s.cur = none) :
    Tracked { s with pendingTasks := [], place := .draining s.pendingTasks } := by
  have htasks : tasks { s with pendingTasks := [], place := .draining s.pendingTasks } =
      s.tasks := by
    rw [tasks, tasks, hplace]
    exact List.append_nil _
  have hbits : s.place.bits = [] := by
    rw [hplace]
    rfl
  refine ⟨⟨h.mapped.grouped, h.mapped.listens, fun _ _ => nofun, h.mapped.noError⟩,
    ⟨?_, ?_, fun _ _ => rfl, ?_, ?_⟩, ⟨h.timed.live, h.timed.owned, fun c hc => ?_⟩⟩
  · rw [htasks]
    exact h.queued.copies
  · have hkeys := h.queued.keys
    rw [hbits] at hkeys
    rw [htasks]
    exact hkeys
  · rw [htasks]
    exact h.queued.starts
  · rw [htasks]
    exact h.queued.submitted
  · cases hcur.symm.trans hc

theorem Tracked.pop {task : Option (HookTask ι ε)} {tempTasks : List (Option (HookTask ι ε))}
    (h : s.Tracked) (hplace : s.place = .draining (task :: tempTasks)) :
    Tracked { s with place := .draining tempTasks } := by
  have htasks : s.tasks =
      task :: tasks { s with place := .draining tempTasks } := by
    rw [tasks, tasks, hplace]
    rfl
  have hbits : s.place.bits = [] := by
    rw [hplace]
    rfl
  have hsub := List.sublist_cons_self task (tasks { s with place := .draining tempTasks })
  rw [← htasks] at hsub
  refine ⟨⟨h.mapped.grouped, h.mapped.listens, fun _ _ => nofun, h.mapped.noError⟩,
    ⟨fun cor wait hmem => h.queued.copies cor wait (hsub.subset hmem), ?_, fun _ _ =>
      h.queued.drained _ hplace, h.queued.starts.sublist (hsub.filterMap _), fun cor hmem =>
      h.queued.submitted cor (hsub.subset hmem)⟩,
    ⟨h.timed.live, h.timed.owned, fun cor hcur => ⟨(h.timed.cur cor hcur).1, rfl⟩⟩⟩
  have hkeys := h.queued.keys
  rw [hbits] at hkeys
  exact hkeys.sublist ((hsub.filterMap _).append_right _)

theorem Tracked.epollWait {events : List ReadyFd} (h : s.Tracked) (hcur : s.cur = none)
    (hplace : s.place = .draining []) (hreports : s.Reports events) :
    Tracked { s with place := .dispatching (events.flatMap ReadyFd.bits) } := by
  obtain ⟨_, hnodup, hready⟩ := hreports
  have htasks : s.tasks = s.pendingTasks := by
    rw [tasks, hplace]
    rfl
  refine ⟨⟨h.mapped.grouped, h.mapped.listens, fun fd ev hmem => ?_, h.mapped.noError⟩,
    ⟨fun cor wait hmem => ?_, ?_, nofun, ?_, fun cor hmem => ?_⟩,
    ⟨h.timed.live, h.timed.owned, fun c hc => ?_⟩⟩
  · obtain ⟨event, hevent, hbit⟩ := List.mem_flatMap.1 hmem
    obtain ⟨ready, epollErr, rfl, hset⟩ := ReadyFd.exists_of_event_mem hbit
    obtain ⟨mask, hmask, hin, hout⟩ := hready _ hevent
    obtain ⟨_, hgroup⟩ := h.mapped.grouped.listens fd mask hmask
    refine h.mapped.listens fd ev ?_
    rw [← hgroup]
    cases ev with
    | inEvent => exact hin hset
    | outEvent => exact hout hset
  · exact h.queued.copies cor wait (htasks ▸ hmem)
  · have hkeys : s.pendingTasks.filterMap HookTask.key = [] := h.queued.drained [] hplace
    change (s.pendingTasks.filterMap _ ++ _).Nodup
    rw [hkeys]
    exact ReadyFd.nodup_keys_flatMap hnodup
  · exact htasks ▸ h.queued.starts
  · exact h.queued.submitted cor (htasks ▸ hmem)
  · cases hcur.symm.trans hc

/-- The callback of an event that is reported is copied for the wait of its coroutine. -/
theorem Tracked.dispatchEvent {fd : ℕ} {ev : TriggerEvent} {bits : List ReadyBit} (h : s.Tracked)
    (hcur : s.cur = none) (hplace : s.place = .dispatching (.event fd ev :: bits)) :
    Tracked ({ s with place := .dispatching bits }.dispatch (.event fd ev)) := by
  have hbits : s.place.bits = .event fd ev :: bits := by
    rw [hplace]
    rfl
  obtain ⟨cor, wait, hhandler, hcor, rfl, rfl⟩ := h.mapped.bits fd ev
    (hbits ▸ List.mem_cons_self)
  have hdispatch : HookedLoop.dispatch { s with place := .dispatching bits }
      (.event wait.fd wait.ev) =
        { s with place := .dispatching bits }.addTask (some (.callback ⟨cor, wait⟩)) := by
    rw [HookedLoop.dispatch, hhandler]
    rfl
  have htasks : tasks { s with place := .dispatching bits } = s.tasks := by
    rw [tasks, tasks, hplace]
    rfl
  rw [hdispatch]
  refine ⟨⟨h.mapped.grouped, h.mapped.listens, fun fd ev hmem => ?_, h.mapped.noError⟩,
    ⟨fun c w hmem => ?_, ?_, nofun, ?_, fun c hmem => ?_⟩,
    ⟨h.timed.live, h.timed.owned, fun c hc => ?_⟩⟩
  · exact h.mapped.bits fd ev (hbits ▸ List.mem_cons_of_mem _ hmem)
  · rw [tasks_addTask, htasks, List.mem_append, List.mem_singleton] at hmem
    rcases hmem with hmem | heq
    · exact h.queued.copies c w hmem
    · cases heq
      exact hcor
  · have hkeys := h.queued.keys
    rw [hbits, ReadyBit.filterMap_key_event] at hkeys
    rw [tasks_addTask, htasks, List.filterMap_append, List.append_assoc]
    exact hkeys
  · rw [tasks_addTask, htasks, List.filterMap_append]
    exact (List.append_nil _).symm ▸ h.queued.starts
  · rw [tasks_addTask, htasks, List.mem_append, List.mem_singleton] at hmem
    rcases hmem with hmem | heq
    · exact h.queued.submitted c hmem
    · cases heq
  · cases hcur.symm.trans hc

theorem Tracked.dispatched {bit : ReadyBit} {bits : List ReadyBit} (h : s.Tracked)
    (hcur : s.cur = none) (hplace : s.place = .dispatching (bit :: bits)) :
    Tracked { s with place := .dispatching bits } := by
  have hbits : s.place.bits = bit :: bits := by
    rw [hplace]
    rfl
  have htasks : tasks { s with place := .dispatching bits } = s.tasks := by
    rw [tasks, tasks, hplace]
    rfl
  refine ⟨⟨h.mapped.grouped, h.mapped.listens, fun fd ev hmem => ?_, h.mapped.noError⟩,
    ⟨?_, ?_, nofun, ?_, ?_⟩, ⟨h.timed.live, h.timed.owned, fun c hc => ?_⟩⟩
  · exact h.mapped.bits fd ev (hbits ▸ List.mem_cons_of_mem _ hmem)
  · rw [htasks]
    exact h.queued.copies
  · have hkeys := h.queued.keys
    rw [hbits] at hkeys
    rw [htasks]
    exact hkeys.sublist (((List.sublist_cons_self bit bits).filterMap _).append_left _)
  · rw [htasks]
    exact h.queued.starts
  · rw [htasks]
    exact h.queued.submitted
  · cases hcur.symm.trans hc

theorem Tracked.dispatchedAll (h : s.Tracked) (hplace : s.place = .dispatching []) :
    Tracked { s with place := .head } := by
  have hbits : s.place.bits = [] := by
    rw [hplace]
    rfl
  have htasks : tasks { s with place := .head } = s.tasks := by
    rw [tasks, tasks, hplace]
    rfl
  have hkeys := h.queued.keys
  rw [hbits] at hkeys
  refine ⟨⟨h.mapped.grouped, h.mapped.listens, fun _ _ => nofun, h.mapped.noError⟩,
    ⟨?_, ?_, nofun, ?_, ?_⟩,
    ⟨h.timed.live, h.timed.owned, fun c hc => ⟨(h.timed.cur c hc).1, rfl⟩⟩⟩ <;> rw [htasks]
  · exact h.queued.copies
  · exact hkeys
  · exact h.queued.starts
  · exact h.queued.submitted

theorem Tracked.dispatch {bit : ReadyBit} {bits : List ReadyBit} (h : s.Tracked)
    (hcur : s.cur = none) (hplace : s.place = .dispatching (bit :: bits)) :
    Tracked ({ s with place := .dispatching bits }.dispatch bit) := by
  have hpassed := h.dispatched hcur hplace
  cases bit with
  | timerFd => exact hpassed.addTask rfl nofun
  | wakeUpFd => exact hpassed.addTask rfl nofun
  | event fd ev => exact h.dispatchEvent hcur hplace
  | error fd =>
      have hnone : ¬ (s.callbacks fd).errorCallback.isSome = true := by
        rw [h.mapped.noError fd]
        exact Bool.false_ne_true
      simp only [HookedLoop.dispatch, if_neg hnone]
      exact hpassed.deleteEpollEvent _

end Loop

end Steps

theorem tracked_new (openFds : Finset ℕ) (clock : ℤ) (events : ε → TimerEvent) :
    (new openFds clock events : HookedLoop ι ε).Tracked where
  mapped :=
    { grouped := EpollRun.grouped_start openFds
      listens := fun _ ev hhas => by cases ev <;> cases hhas
      bits := fun _ _ => nofun
      noError := fun _ => rfl }
  queued :=
    { copies := fun _ _ => nofun
      keys := List.nodup_nil
      drained := fun _ => nofun
      starts := List.nodup_nil
      submitted := fun _ => nofun }
  timed :=
    { live := fun _ => nofun
      owned := fun _ _ => nofun
      cur := fun _ => nofun }

end HookedLoop

end Rocket
