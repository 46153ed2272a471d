import Mathlib.Data.Int.Order.Basic
import Mathlib.Logic.Function.Basic
import Rocket.Foundation.Machine
import Rocket.Foundation.Multimap

/-!
# Timer

The timer of an event loop with its pending events, and the timerfd that makes
the loop call `onTimer`. Times are milliseconds of one clock, which `getNowMs`
reads and the timerfd counts.

Events are shared between the timer and their makers. `events` is the memory
they live in, by their pointers. `onTimer` has two parts: it takes the events
that are due off the queue, and then runs their callbacks. In a run the
callbacks are steps of their own (`runTask`), so that they may call
`addTimerEvent` and `deleteTimerEvent` themselves.
-/

namespace Rocket

open Foundation

/-- `TimerEvent`. `hasTask` says whether `m_task` holds a function. -/
structure TimerEvent where
  arriveTime : ℤ
  interval : ℤ
  isRepeated : Bool := false
  isCanceled : Bool := false
  hasTask : Bool := true
  deriving DecidableEq, Repr

/-- `TimerEvent::resetArriveTime`, at the time `now`. -/
def TimerEvent.resetArriveTime (e : TimerEvent) (now : ℤ) : TimerEvent :=
  { e with arriveTime := now + e.interval }

/-- `TimerEvent::TimerEvent`, at the time `now`. -/
def TimerEvent.new (interval : ℤ) (isRepeated hasTask : Bool) (now : ℤ) : TimerEvent :=
  TimerEvent.resetArriveTime
    { arriveTime := 0, interval := interval, isRepeated := isRepeated, hasTask := hasTask } now

structure Timespec where
  tvSec : ℤ
  tvNsec : ℤ
  deriving DecidableEq, Repr

def Timespec.toMs (ts : Timespec) : ℤ := ts.tvSec * 1000 + ts.tvNsec / 1000000

/-- The `timespec` of an interval in milliseconds. -/
def Timespec.ofInterval (interval : ℤ) : Timespec where
  tvSec := interval.tdiv 1000
  tvNsec := interval.tmod 1000 * 1000000

/-- A timerfd: when it expires, if it is armed; whether an expiry has not been
read yet; and the calls of `timerfd_settime` with their times, the latest first. -/
structure TimerFd where
  expiry : Option ℤ := none
  unread : Bool := false
  settimes : List (ℤ × Timespec) := []
  deriving DecidableEq, Repr

namespace TimerFd

/-- `timerfd_settime` with a relative value. The value zero disarms. -/
def settime (fd : TimerFd) (now : ℤ) (value : Timespec) : TimerFd where
  expiry := if value = ⟨0, 0⟩ then none else some (now + value.toMs)
  unread := false
  settimes := (now, value) :: fd.settimes

/-- The loop that reads until `EAGAIN`. -/
def read (fd : TimerFd) : TimerFd := { fd with unread := false }

/-- The clock has reached `now`. -/
def expire (fd : TimerFd) (now : ℤ) : TimerFd :=
  if ∃ x ∈ fd.expiry, x ≤ now then { fd with expiry := none, unread := true } else fd

end TimerFd

/-- `Timer`. `inserted` is the history of `m_pending_events`: the events in the
order in which they have been inserted, the latest first. -/
structure Timer (ε : Type) where
  events : ε → TimerEvent
  pendingEvents : Multimap ℤ ε := .empty
  fd : TimerFd := {}
  inserted : List ε := []

namespace Timer

variable {ε : Type}

/-- The interval until the first pending event, or the 100 ms for an overdue one. -/
def firstInterval (arriveTime now : ℤ) : ℤ := if arriveTime > now then arriveTime - now else 100

/-- `Timer::resetArriveTime` -/
def resetArriveTime (t : Timer ε) (now : ℤ) : Timer ε :=
  match t.pendingEvents.entries with
  | [] => t
  | (_, e) :: _ =>
      let interval := firstInterval (t.events e).arriveTime now
      { t with fd := t.fd.settime now (.ofInterval interval) }

/-- The queue is empty, or its first event arrives later than `e`. -/
def isResetTimerfd (t : Timer ε) (e : ε) : Bool :=
  match t.pendingEvents.entries with
  | [] => true
  | (_, first) :: _ => (t.events first).arriveTime > (t.events e).arriveTime

/-- `Timer::addTimerEvent` -/
def addTimerEvent (t : Timer ε) (now : ℤ) (e : ε) : Timer ε :=
  let isResetTimerfd := t.isResetTimerfd e
  let t := { t with
    pendingEvents := t.pendingEvents.emplace (t.events e).arriveTime e
    inserted := e :: t.inserted }
  if isResetTimerfd then t.resetArriveTime now else t

def Pending (t : Timer ε) (e : ε) : Prop := e ∈ t.pendingEvents.entries.map Prod.snd

section Frame

variable {t : Timer ε} {now : ℤ} {e e' : ε}

@[simp] theorem events_resetArriveTime : (t.resetArriveTime now).events = t.events := by
  unfold resetArriveTime
  split <;> rfl

@[simp] theorem pendingEvents_resetArriveTime :
    (t.resetArriveTime now).pendingEvents = t.pendingEvents := by
  unfold resetArriveTime
  split <;> rfl

@[simp] theorem inserted_resetArriveTime : (t.resetArriveTime now).inserted = t.inserted := by
  unfold resetArriveTime
  split <;> rfl

@[simp] theorem events_addTimerEvent : (t.addTimerEvent now e).events = t.events := by
  unfold addTimerEvent
  dsimp only
  split <;> simp

@[simp] theorem pendingEvents_addTimerEvent : (t.addTimerEvent now e).pendingEvents =
    t.pendingEvents.emplace (t.events e).arriveTime e := by
  unfold addTimerEvent
  dsimp only
  split <;> simp

@[simp] theorem inserted_addTimerEvent : (t.addTimerEvent now e).inserted = e :: t.inserted := by
  unfold addTimerEvent
  dsimp only
  split <;> simp

theorem pending_addTimerEvent : (t.addTimerEvent now e).Pending e' ↔ e' = e ∨ t.Pending e' := by
  simp only [Pending, pendingEvents_addTimerEvent, List.mem_map, Multimap.mem_emplace]
  constructor
  · rintro ⟨p, rfl | hp, rfl⟩
    · exact Or.inl rfl
    · exact Or.inr ⟨p, hp, rfl⟩
  · rintro (rfl | ⟨p, hp, rfl⟩)
    · exact ⟨_, Or.inl rfl, rfl⟩
    · exact ⟨p, Or.inr hp, rfl⟩

end Frame

variable [DecidableEq ε]

/-- `Timer::deleteTimerEvent` -/
def deleteTimerEvent (t : Timer ε) (e : ε) : Timer ε :=
  { t with
    events := Function.update t.events e { t.events e with isCanceled := true }
    pendingEvents := t.pendingEvents.erase (t.events e).arriveTime e }

section Delete

variable {t : Timer ε} {e e' : ε}

@[simp] theorem inserted_deleteTimerEvent : (t.deleteTimerEvent e).inserted = t.inserted := rfl

@[simp] theorem arriveTime_deleteTimerEvent :
    ((t.deleteTimerEvent e).events e').arriveTime = (t.events e').arriveTime := by
  by_cases he : e' = e
  · subst he
    simp [deleteTimerEvent]
  · simp [deleteTimerEvent, he]

end Delete

/-- A collected event that is repeated gets a new arrive time and is added again. -/
def addRepeated (now : ℤ) (t : Timer ε) (e : ε) : Timer ε :=
  if (t.events e).isRepeated then
    { t with events := Function.update t.events e ((t.events e).resetArriveTime now) }.addTimerEvent
      now e
  else t

/-- The events that `onTimer` collects at the time `now`: those in front of the
first entry with a later key, without the canceled ones. -/
def collected (t : Timer ε) (now : ℤ) : List ε :=
  ((t.pendingEvents.upTo now).map Prod.snd).filter fun e => !(t.events e).isCanceled

/-- `Timer::onTimer` up to the loop that runs the callbacks, with the events whose
callbacks are to run. -/
def onTimer (t : Timer ε) (now : ℤ) : Timer ε × List ε :=
  let temp := t.collected now
  let t := { t with fd := t.fd.read, pendingEvents := t.pendingEvents.eraseUpTo now }
  ((temp.foldl (addRepeated now) t).resetArriveTime now, temp)

end Timer

/-- A state of a run: the clock, the timer, and the events whose callbacks the
running `onTimer` has not run yet. -/
structure TimerRun (ε : Type) where
  clock : ℤ
  timer : Timer ε
  tasks : List ε := []

/-- What happens in a run. `advance` lets time pass, and `runTask` runs the next
callback of `onTimer`; what the callback itself does with the timer are the steps
that follow. -/
inductive TimerOp (ε : Type) where
  | addTimerEvent (e : ε)
  | deleteTimerEvent (e : ε)
  | onTimer
  | runTask
  | advance (ms : ℕ)
  deriving DecidableEq, Repr

inductive TimerOutput (ε : Type) where
  | done
  | collected (es : List ε)
  | fired (e : ε)
  deriving DecidableEq, Repr

namespace TimerRun

variable {ε : Type}

def new (clock : ℤ) (events : ε → TimerEvent) : TimerRun ε := ⟨clock, { events := events }, []⟩

variable [DecidableEq ε]

/-- One step of a run. `onTimer` is not called while it is running. -/
def step (s : TimerRun ε) : TimerOp ε → Option (TimerRun ε × TimerOutput ε)
  | .addTimerEvent e => some ({ s with timer := s.timer.addTimerEvent s.clock e }, .done)
  | .deleteTimerEvent e => some ({ s with timer := s.timer.deleteTimerEvent e }, .done)
  | .onTimer =>
      match s.tasks with
      | [] =>
          let r := s.timer.onTimer s.clock
          some ({ s with timer := r.1, tasks := r.2 }, .collected r.2)
      | _ :: _ => none
  | .runTask =>
      match s.tasks with
      | [] => none
      | e :: tasks =>
          some ({ s with tasks := tasks }, if (s.timer.events e).hasTask then .fired e else .done)
  | .advance ms =>
      let clock := s.clock + ms
      some ({ s with clock := clock, timer.fd := s.timer.fd.expire clock }, .done)

def machine : Machine (TimerRun ε) (TimerOp ε) (TimerOutput ε) := ⟨step⟩

section Step

variable {s s' : TimerRun ε} {out : TimerOutput ε}

/-- `onTimer` starts when no callback is left. -/
theorem onTimer_cases (hstep : machine.step s .onTimer = some (s', out)) :
    s.tasks = [] ∧
      s' = { s with timer := (s.timer.onTimer s.clock).1, tasks := (s.timer.onTimer s.clock).2 } ∧
      out = .collected (s.timer.onTimer s.clock).2 := by
  cases htasks : s.tasks with
  | nil =>
      simp only [machine, step, htasks] at hstep
      cases hstep
      exact ⟨rfl, rfl, rfl⟩
  | cons e tasks => simp [machine, step, htasks] at hstep

/-- `runTask` runs the first callback that is left. -/
theorem runTask_cases (hstep : machine.step s .runTask = some (s', out)) :
    ∃ e tasks, s.tasks = e :: tasks ∧ s' = { s with tasks := tasks } ∧
      out = if (s.timer.events e).hasTask then .fired e else .done := by
  cases htasks : s.tasks with
  | nil => simp [machine, step, htasks] at hstep
  | cons e tasks =>
      simp only [machine, step, htasks] at hstep
      cases hstep
      exact ⟨e, tasks, rfl, rfl, rfl⟩

end Step

/-- Events are added only while they are not pending. -/
def AddsFresh (s : TimerRun ε) : TimerOp ε → Prop
  | .addTimerEvent e => ¬ s.timer.Pending e
  | _ => True

instance (s : TimerRun ε) : ∀ op, Decidable (s.AddsFresh op)
  | .addTimerEvent e =>
      inferInstanceAs (Decidable (¬ e ∈ s.timer.pendingEvents.entries.map Prod.snd))
  | .deleteTimerEvent _ | .onTimer | .runTask | .advance _ => isTrue trivial

end TimerRun

end Rocket
