import Rocket.Net.EventLoop
import Rocket.Net.Timer

/-!
# The hooked calls in an event loop

The coroutines of a thread call `read`, `accept`, `write` and `connect`, which suspend them
until the loop of the thread resumes them. A call that has to wait installs a callback in
the `FdEvent` of its descriptor. When `epoll_wait` reports the descriptor, the loop copies
the callback to the task queue, and runs it in its next round. Timer events resume
coroutines as well: `onTimer` copies the callbacks of those that are due, and then runs
them one by one.

A callback knows its coroutine only. The model keeps with it the wait that it was installed
for, and gives each wait a number. Calls that do not wait, what is read and written, the
stop flag, the wakeups, and the registrations of the timerfd and the wakeup descriptor are
left out. So is a coroutine that gets another callback after it has finished.
-/

namespace Rocket

open Foundation

/-- A wait of a coroutine in a hooked call: the descriptor and the event it has been
registered for, and the timeout of `connect`. -/
structure HookWait (ε : Type) where
  fd : ℕ
  ev : TriggerEvent
  id : ℕ
  timer : Option ε := none
  deriving DecidableEq, Repr

/-- The callback that `toEpoll` installs. -/
structure WaitCallback (ι ε : Type) where
  cor : ι
  wait : HookWait ε
  deriving DecidableEq, Repr

/-- The callbacks of an `FdEvent`. -/
structure FdCallbacks (ι ε : Type) where
  readCallback : Option (WaitCallback ι ε) := none
  writeCallback : Option (WaitCallback ι ε) := none
  errorCallback : Option (WaitCallback ι ε) := none

namespace FdCallbacks

variable {ι ε : Type}

/-- `FdEvent::handler` -/
def handler (f : FdCallbacks ι ε) : TriggerEvent → Option (WaitCallback ι ε)
  | .inEvent => f.readCallback
  | .outEvent => f.writeCallback

/-- What `FdEvent::listen` does to the callbacks. -/
def listen (f : FdCallbacks ι ε) (ev : TriggerEvent) (callback : WaitCallback ι ε)
    (errorCallback : Option (WaitCallback ι ε) := none) : FdCallbacks ι ε :=
  let f := match ev with
    | .inEvent => { f with readCallback := some callback }
    | .outEvent => { f with writeCallback := some callback }
  { f with errorCallback := if f.errorCallback.isNone then errorCallback else none }

end FdCallbacks

/-- A task of the loop: a callback of an `FdEvent`, `Timer::onTimer`, what `addCoroutine`
submits, or one that resumes no coroutine. -/
inductive HookTask (ι ε : Type) where
  | callback (callback : WaitCallback ι ε)
  | onTimer
  | resume (cor : ι)
  | other
  deriving DecidableEq, Repr

/-- What `epoll_wait` reports: the timerfd, the wakeup descriptor, or another one with its
bits. -/
inductive ReadyFd where
  | timerFd
  | wakeUpFd
  | fd (fd : ℕ) (events : EpollEvents) (epollErr : Bool)
  deriving DecidableEq, Repr

/-- A bit of an event that the loop has still to look at. -/
inductive ReadyBit where
  | timerFd
  | wakeUpFd
  | event (fd : ℕ) (ev : TriggerEvent)
  | error (fd : ℕ)
  deriving DecidableEq, Repr

namespace ReadyFd

def fd? : ReadyFd → Option ℕ
  | .fd n _ _ => some n
  | _ => none

def bits : ReadyFd → List ReadyBit
  | .timerFd => [.timerFd]
  | .wakeUpFd => [.wakeUpFd]
  | .fd n events epollErr =>
      (if events.epollIn then [.event n .inEvent] else []) ++
        (if events.epollOut then [.event n .outEvent] else []) ++
          (if epollErr then [.error n] else [])

end ReadyFd

/-- Where the loop is: in front of the swap, between two of the `temp_tasks`, or between
two bits of what `epoll_wait` has reported. -/
inductive HookedPlace (ι ε : Type) where
  | head
  | draining (tempTasks : List (Option (HookTask ι ε)))
  | dispatching (bits : List ReadyBit)
  deriving DecidableEq, Repr

namespace HookedPlace

variable {ι ε : Type}

def tempTasks : HookedPlace ι ε → List (Option (HookTask ι ε))
  | .draining tempTasks => tempTasks
  | _ => []

def bits : HookedPlace ι ε → List ReadyBit
  | .dispatching bits => bits
  | _ => []

end HookedPlace

/-- What a coroutine does: it is new, or submitted to the loop; it runs, waits in a hooked
call, or has finished. -/
inductive HookedCor (ε : Type) where
  | created
  | submitted
  | running
  | waiting (wait : HookWait ε)
  | finished
  deriving DecidableEq, Repr

namespace HookedCor

variable {ε : Type}

def wait? : HookedCor ε → Option (HookWait ε)
  | .waiting wait => some wait
  | _ => none

def isStarted : HookedCor ε → Bool
  | .created | .submitted => false
  | _ => true

end HookedCor

/-- A thread with its event loop: the coroutines and the one that runs, unless it is the
main one; the number of waits so far; the epoll set and the `FdEvent`s; the clock and the
timer, with the callbacks that `onTimer` has still to run; the timer events that have been
made, and the coroutines that their callbacks resume; and the tasks of the loop. -/
structure HookedLoop (ι ε : Type) where
  cors : ι → HookedCor ε := fun _ => .created
  cur : Option ι := none
  waits : ℕ := 0
  epoll : EpollRun
  callbacks : ℕ → FdCallbacks ι ε := fun _ => {}
  clock : ℤ
  timer : Timer ε
  timerTasks : List ε := []
  made : ε → Bool := fun _ => false
  owner : ε → Option ι := fun _ => none
  pendingTasks : List (Option (HookTask ι ε)) := []
  place : HookedPlace ι ε := .head

/-- Where a call of `Resume` comes from: a callback of a wait, a timer event, or whoever
starts a coroutine. -/
inductive WakeSource (ε : Type) where
  | callback (wait : HookWait ε)
  | timer (e : ε)
  | start
  deriving DecidableEq, Repr

/-- What happens in the thread. `addTask` submits a task that resumes no coroutine, and
`resume` resumes a coroutine outside of the loop. The hooked calls are those of the coroutine
that runs, when they wait. -/
inductive HookOp (ι ε : Type) where
  | addTask
  | addCoroutine (cor : ι)
  | advance (ms : ℕ)
  | resume (cor : ι)
  | swap
  | runTask
  | runTimer
  | epollWait (events : List ReadyFd)
  | dispatch
  | readHook (fd : ℕ)
  | acceptHook (fd : ℕ)
  | writeHook (fd : ℕ)
  | connectHook (fd : ℕ) (e : ε)
  | newTimerEvent (e : ε) (interval : ℤ) (isRepeated resumes : Bool)
  | addTimerEvent (e : ε)
  | deleteTimerEvent (e : ε)
  | opened (fd : ℕ)
  | close (fd : ℕ)
  | deleteEpollEvent (fd : ℕ)
  | clear (fd : ℕ)
  | finish
  deriving DecidableEq, Repr

namespace HookedLoop

variable {ι ε : Type}

/-- A thread with the open descriptors `openFds`, at the time `clock`. -/
def new (openFds : Finset ℕ) (clock : ℤ) (events : ε → TimerEvent) : HookedLoop ι ε where
  epoll := { openFds := openFds }
  clock := clock
  timer := { events := events }

variable (s : HookedLoop ι ε)

/-- `EventLoop::addTask` -/
def addTask (task : Option (HookTask ι ε)) : HookedLoop ι ε :=
  { s with pendingTasks := s.pendingTasks ++ [task] }

/-- What the kernel may report: a descriptor that has been read from is not ready, an event
has been registered, and a descriptor is reported once. -/
def Reports (events : List ReadyFd) : Prop :=
  events.length ≤ epollMaxEvents ∧ (events.filterMap ReadyFd.fd?).Nodup ∧
    ∀ event ∈ events, match event with
      | .timerFd => s.timer.fd.unread = true
      | .wakeUpFd => True
      | .fd fd ready _ => ∃ mask ∈ s.epoll.registered fd,
          (ready.epollIn = true → mask.epollIn = true) ∧
            (ready.epollOut = true → mask.epollOut = true)

instance (events : List ReadyFd) : Decidable (s.Reports events) :=
  have (event : ReadyFd) : Decidable (match event with
      | .timerFd => s.timer.fd.unread = true
      | .wakeUpFd => True
      | .fd fd ready _ => ∃ mask ∈ s.epoll.registered fd,
          (ready.epollIn = true → mask.epollIn = true) ∧
            (ready.epollOut = true → mask.epollOut = true)) :=
    match event with
    | .timerFd => inferInstanceAs (Decidable (_ = true))
    | .wakeUpFd => isTrue trivial
    | .fd _ _ _ => inferInstanceAs (Decidable (∃ mask ∈ _, _))
  inferInstanceAs (Decidable (_ ∧ _ ∧ _))

/-- What `loop` does with a bit. -/
def dispatch : ReadyBit → HookedLoop ι ε
  | .timerFd => s.addTask (some .onTimer)
  | .wakeUpFd => s.addTask (some .other)
  | .event fd ev => s.addTask (((s.callbacks fd).handler ev).map .callback)
  | .error fd =>
      let s := { s with epoll := (s.epoll.deleteFromEpoll ⟨fd, s.epoll.fdGroup fd⟩).1 }
      if (s.callbacks fd).errorCallback.isSome then
        s.addTask (((s.callbacks fd).handler .outEvent).map .callback)
      else s

/-- `TcpConnection::clear` -/
def clear (fd : ℕ) : HookedLoop ι ε :=
  let events := ((s.epoll.fdGroup fd).set false .inEvent).set false .outEvent
  let epoll := { s.epoll with fdGroup := Function.update s.epoll.fdGroup fd events }
  { s with epoll := (epoll.deleteFromEpoll ⟨fd, events⟩).1 }

section

variable [DecidableEq ε]

/-- A new event whose callback resumes the coroutine that runs, or none. `Resume` does not
resume the main coroutine. -/
def newTimerEvent (e : ε) (interval : ℤ) (isRepeated resumes : Bool) : HookedLoop ι ε :=
  { s with
    made := Function.update s.made e true
    owner := Function.update s.owner e (if resumes then s.cur else none)
    timer := { s.timer with
      events := Function.update s.timer.events e (.new interval isRepeated true s.clock) } }

def addTimerEvent (e : ε) : HookedLoop ι ε :=
  { s with timer := s.timer.addTimerEvent s.clock e }

def deleteTimerEvent (e : ε) : HookedLoop ι ε :=
  { s with timer := s.timer.deleteTimerEvent e }

variable [DecidableEq ι]

/-- `EventLoop::addCoroutine` -/
def addCoroutine (cor : ι) : HookedLoop ι ε :=
  let state := if s.cors cor = .created then .submitted else s.cors cor
  { s with cors := Function.update s.cors cor state }.addTask (some (.resume cor))

/-- A hooked call from `toEpoll` to `Yield`. -/
def hook (fd : ℕ) (ev : TriggerEvent) (timer : Option ε := none) : Option (HookedLoop ι ε) :=
  s.cur.bind fun cor =>
    if s.cors cor = .running then
      let wait : HookWait ε := ⟨fd, ev, s.waits, timer⟩
      some { s with
        cors := Function.update s.cors cor (.waiting wait)
        cur := none
        waits := s.waits + 1
        epoll := (s.epoll.toEpoll fd ev).1
        callbacks := Function.update s.callbacks fd ((s.callbacks fd).listen ev ⟨cor, wait⟩) }
    else none

/-- `read_hook` -/
def readHook (fd : ℕ) : Option (HookedLoop ι ε) := s.hook fd .inEvent

/-- `accept_hook` -/
def acceptHook (fd : ℕ) : Option (HookedLoop ι ε) := s.hook fd .inEvent

/-- `write_hook` -/
def writeHook (fd : ℕ) : Option (HookedLoop ι ε) := s.hook fd .outEvent

/-- `connect_hook`. It does not matter that the timer is set before `toEpoll`. -/
def connectHook (fd : ℕ) (e : ε) : Option (HookedLoop ι ε) :=
  if s.made e then none
  else ((s.newTimerEvent e 10000 false true).addTimerEvent e).hook fd .outEvent (some e)

/-- A hooked call from `Yield` on. -/
def goOn (cor : ι) (wait : HookWait ε) : HookedLoop ι ε :=
  { s with
    cors := Function.update s.cors cor .running
    cur := some cor
    epoll := (s.epoll.listen wait.fd wait.ev false).1
    timer := wait.timer.elim s.timer s.timer.deleteTimerEvent }

/-- `Coroutine::Resume`. What a coroutine does that has finished is not defined. -/
def resume (cor : ι) : HookedLoop ι ε :=
  match s.cors cor with
  | .created | .submitted =>
      { s with cors := Function.update s.cors cor .running, cur := some cor }
  | .waiting wait => s.goOn cor wait
  | .running | .finished => { s with cur := some cor }

def runTask : Option (HookTask ι ε) → HookedLoop ι ε × Option (WakeSource ε × ι)
  | some (.callback callback) =>
      (s.resume callback.cor, some (.callback callback.wait, callback.cor))
  | some .onTimer =>
      let r := s.timer.onTimer s.clock
      ({ s with timer := r.1, timerTasks := r.2 }, none)
  | some (.resume cor) => (s.resume cor, some (.start, cor))
  | some .other | none => (s, none)

def runTimer (e : ε) : HookedLoop ι ε × Option (WakeSource ε × ι) :=
  match s.owner e with
  | some cor => (s.resume cor, some (.timer e, cor))
  | none => (s, none)

def step : HookOp ι ε → Option (HookedLoop ι ε × Option (WakeSource ε × ι))
  | .addTask => some (s.addTask (some .other), none)
  | .addCoroutine cor => some (s.addCoroutine cor, none)
  | .advance ms =>
      let clock := s.clock + ms
      some ({ s with clock := clock, timer.fd := s.timer.fd.expire clock }, none)
  | .resume cor =>
      if s.cur = none ∧ s.place = .head then some (s.resume cor, some (.start, cor)) else none
  | .swap =>
      if s.cur = none ∧ s.place = .head then
        some ({ s with pendingTasks := [], place := .draining s.pendingTasks }, none)
      else none
  | .runTask =>
      match s.place with
      | .draining (task :: tempTasks) =>
          if s.cur = none ∧ s.timerTasks = [] then
            some ({ s with place := .draining tempTasks }.runTask task)
          else none
      | _ => none
  | .runTimer =>
      match s.place, s.timerTasks with
      | .draining _, e :: timerTasks =>
          if s.cur = none then some ({ s with timerTasks := timerTasks }.runTimer e) else none
      | _, _ => none
  | .epollWait events =>
      if s.cur = none ∧ s.timerTasks = [] ∧ s.place = .draining [] ∧ s.Reports events then
        some ({ s with place := .dispatching (events.flatMap ReadyFd.bits) }, none)
      else none
  | .dispatch =>
      match s.place with
      | .dispatching [] => some ({ s with place := .head }, none)
      | .dispatching (bit :: bits) =>
          some ({ s with place := .dispatching bits }.dispatch bit, none)
      | _ => none
  | .readHook fd => (s.readHook fd).map fun s => (s, none)
  | .acceptHook fd => (s.acceptHook fd).map fun s => (s, none)
  | .writeHook fd => (s.writeHook fd).map fun s => (s, none)
  | .connectHook fd e => (s.connectHook fd e).map fun s => (s, none)
  | .newTimerEvent e interval isRepeated resumes =>
      if s.made e then none else some (s.newTimerEvent e interval isRepeated resumes, none)
  | .addTimerEvent e => if s.made e then some (s.addTimerEvent e, none) else none
  | .deleteTimerEvent e => if s.made e then some (s.deleteTimerEvent e, none) else none
  | .opened fd => (s.epoll.opened fd).map fun epoll => ({ s with epoll := epoll }, none)
  | .close fd => some ({ s with epoll := s.epoll.close fd }, none)
  | .deleteEpollEvent fd =>
      some ({ s with epoll := (s.epoll.deleteFromEpoll ⟨fd, s.epoll.fdGroup fd⟩).1 }, none)
  | .clear fd => some (s.clear fd, none)
  | .finish =>
      s.cur.bind fun cor =>
        if s.cors cor = .running then
          some ({ s with cors := Function.update s.cors cor .finished, cur := none }, none)
        else none

def machine : Machine (HookedLoop ι ε) (HookOp ι ε) (Option (WakeSource ε × ι)) :=
  ⟨fun s op => s.step op⟩

end

end HookedLoop

end Rocket
