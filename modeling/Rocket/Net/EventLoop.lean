import Mathlib.Logic.Function.Basic
import Rocket.Foundation.Machine
import Rocket.Foundation.Queue
import Rocket.Net.Epoll

/-!
# EventLoop

The tasks of an event loop. Any thread may submit one: it pushes the task under the
mutex and, if it was asked to, wakes the loop up after that. The loop swaps the whole
queue out, runs the tasks, which may submit others, waits in `epoll_wait`, and submits
the handlers of the descriptors that are ready.

A guarded section is one step. What the tasks do is left out, but for the handler of the
wakeup descriptor and for what the tasks submit. So is the epoll set.
-/

namespace Rocket

open Foundation

/-- A task of a loop: what `addEpollEvent` and `deleteEpollEvent` submit from another
thread, the resumption of a coroutine, a client for an IO thread, the handler of the
wakeup descriptor, and the handlers of the other descriptors. -/
inductive LoopTask (α : Type) where
  | addToEpoll (event : FdEvent)
  | deleteFromEpoll (event : FdEvent)
  | resume (cor : ℕ)
  | addClient (fd : ℕ)
  | readWakeup
  | handler (a : α)
  deriving DecidableEq, Repr

/-- A `std::function`, which may be empty. -/
abbrev LoopCallback (α : Type) := Option (LoopTask α)

/-- An event that `epoll_wait` has filled in: a null `FdEvent`, the wakeup descriptor, or
another one with its bits and its callbacks. -/
inductive ReadyEvent (α : Type) where
  | null
  | wakeUpFd
  | fd (epollIn epollOut epollErr : Bool) (read write error : Option α)
  deriving DecidableEq, Repr

namespace ReadyEvent

variable {α : Type}

/-- What `loop` submits for an event. -/
def tasks : ReadyEvent α → List (LoopCallback α)
  | null => []
  | wakeUpFd => [some .readWakeup]
  | fd epollIn epollOut epollErr read write error =>
      (if epollIn then [read.map .handler] else []) ++
        (if epollOut then [write.map .handler] else []) ++
          (if epollErr && error.isSome then [write.map .handler] else [])

def isWakeUpFd : ReadyEvent α → Bool
  | wakeUpFd => true
  | _ => false

end ReadyEvent

/-- Where the loop is: at the condition of `while`, behind it, between two of the
`temp_tasks`, in a task, in `epoll_wait`, submitting handlers, or at its end. -/
inductive LoopPlace (α : Type) where
  | head
  | checked
  | draining (tempTasks : List (LoopCallback α))
  | running (task : LoopTask α) (tempTasks : List (LoopCallback α))
  | waiting
  | dispatching (callbacks : List (LoopCallback α))
  | exited
  deriving DecidableEq, Repr

/-- `temp_tasks`, without the task that the loop has taken. -/
def LoopPlace.tempTasks {α : Type} : LoopPlace α → List (LoopCallback α)
  | .draining tempTasks | .running _ tempTasks => tempTasks
  | _ => []

/-- `g_epoll_max_events` -/
def epollMaxEvents : ℕ := 10

/-- The largest value of the counter of an eventfd, `2^64 - 2`. -/
def eventfdMax : ℕ := 18446744073709551614

/-- `WakeUpFdEvent::wakeup` writes the eight bytes of `{'a'}`. The descriptor does not
block. -/
def eventfdWrite (count : ℕ) : ℕ := if count + 97 ≤ eventfdMax then count + 97 else count

/-- `EventLoop`, the counter of `m_wakeup_fd`, where the loop is, and which callers have
still to write to the wakeup descriptor. A caller is another thread, or the loop itself.
`taken` are the tasks that were taken for execution so far, and `pushed` those that were
pushed. -/
structure EventLoop (α τ : Type) where
  stopFlag : Bool := false
  pendingTasks : List (LoopCallback α) := []
  wakeupFd : ℕ := 0
  place : LoopPlace α := .head
  writing : Option τ → Bool := fun _ => false
  taken : List (LoopCallback α) := []
  pushed : List (LoopCallback α) := []

/-- What a caller asks of the loop. -/
inductive LoopCall (α : Type) where
  | addTask (callback : LoopCallback α) (isWakeUp : Bool)
  | addCoroutine (cor : ℕ) (isWakeUp : Bool)
  | addEpollEvent (event : FdEvent)
  | deleteEpollEvent (event : FdEvent)
  | onAccept (clientFd : ℕ)
  | stop
  deriving DecidableEq, Repr

/-- A step: a call of `caller`, the write of `caller` to the wakeup descriptor, a step of
the loop, `epoll_wait` returning `events`, or a `read` of the wakeup descriptor after which
`errno` is `EAGAIN` or not. -/
inductive LoopOp (α τ : Type) where
  | call (caller : Option τ) (call : LoopCall α)
  | wakeup (caller : Option τ)
  | loop
  | epollWait (events : List (ReadyEvent α))
  | readWakeup (again : Bool)
  deriving DecidableEq, Repr

namespace EventLoop

variable {α τ : Type} (s : EventLoop α τ)

def push (callback : LoopCallback α) : EventLoop α τ :=
  { s with pendingTasks := s.pendingTasks ++ [callback], pushed := s.pushed ++ [callback] }

section

variable [DecidableEq τ] (caller : Option τ)

def setWriting (b : Bool) : EventLoop α τ :=
  { s with writing := Function.update s.writing caller b }

/-- `EventLoop::addTask`. The write to the wakeup descriptor follows. -/
def addTask (callback : LoopCallback α) (isWakeUp : Bool := false) : EventLoop α τ :=
  let s := s.push callback
  if isWakeUp then s.setWriting caller true else s

/-- `EventLoop::addCoroutine` -/
def addCoroutine (cor : ℕ) (isWakeUp : Bool := true) : EventLoop α τ :=
  s.addTask caller (some (.resume cor)) isWakeUp

/-- `EventLoop::addEpollEvent`. The loop itself does not submit anything. -/
def addEpollEvent (event : FdEvent) : EventLoop α τ :=
  if caller.isNone then s else s.addTask caller (some (.addToEpoll event)) true

/-- `EventLoop::deleteEpollEvent`. -/
def deleteEpollEvent (event : FdEvent) : EventLoop α τ :=
  if caller.isNone then s else s.addTask caller (some (.deleteFromEpoll event)) true

/-- What `TcpServer::onAccept` asks of the loop of an IO thread. -/
def onAccept (clientFd : ℕ) : EventLoop α τ := s.addTask caller (some (.addClient clientFd))

/-- `EventLoop::stop`. The write to the wakeup descriptor follows. -/
def stop : EventLoop α τ := { s with stopFlag := true }.setWriting caller true

def call : LoopCall α → EventLoop α τ
  | .addTask callback isWakeUp => s.addTask caller callback isWakeUp
  | .addCoroutine cor isWakeUp => s.addCoroutine caller cor isWakeUp
  | .addEpollEvent event => s.addEpollEvent caller event
  | .deleteEpollEvent event => s.deleteEpollEvent caller event
  | .onAccept clientFd => s.onAccept caller clientFd
  | .stop => s.stop caller

/-- `EventLoop::wakeup` -/
def wakeup : EventLoop α τ := { s with wakeupFd := eventfdWrite s.wakeupFd }.setWriting caller false

end

/-- A caller can go on: it has nothing to write to the wakeup descriptor, and if it is the
loop, then it is in a task. The handler of the wakeup descriptor asks for nothing. -/
def callable : Option τ → Bool
  | some t => !s.writing (some t)
  | none => !s.writing none &&
      match s.place with
      | .running .readWakeup _ => false
      | .running _ _ => true
      | _ => false

/-- The next step of `EventLoop::loop`, but for what `epoll_wait` and the handler of the
wakeup descriptor do. -/
def loop : Option (EventLoop α τ) :=
  match s.place with
  | .head => some { s with place := if s.stopFlag then .exited else .checked }
  | .checked => some { s with pendingTasks := [], place := .draining s.pendingTasks }
  | .draining [] => some { s with place := .waiting }
  | .draining (callback :: tempTasks) =>
      some { s with
        taken := s.taken ++ [callback]
        place := callback.elim (.draining tempTasks) fun task => .running task tempTasks }
  | .running .readWakeup _ => none
  | .running _ tempTasks => some { s with place := .draining tempTasks }
  | .waiting => none
  | .dispatching [] => some { s with place := .head }
  | .dispatching (callback :: callbacks) =>
      some { s.push callback with place := .dispatching callbacks }
  | .exited => none

/-- `epoll_wait` returns. The wakeup descriptor is ready only if its counter is not zero. -/
def epollWait (events : List (ReadyEvent α)) : Option (EventLoop α τ) :=
  match s.place with
  | .waiting =>
      if events.length ≤ epollMaxEvents ∧
          (events.any ReadyEvent.isWakeUpFd = true → 0 < s.wakeupFd) then
        some { s with place := .dispatching (events.flatMap ReadyEvent.tasks) }
      else none
  | _ => none

/-- A `read` of the handler of the wakeup descriptor. The handler ends when `read` has
failed, and also if `errno` still is `EAGAIN` from an earlier call. -/
def readWakeup (again : Bool) : Option (EventLoop α τ) :=
  match s.place with
  | .running .readWakeup tempTasks =>
      if s.wakeupFd = 0 then some { s with place := .draining tempTasks }
      else some { s with
        wakeupFd := 0
        place := if again then .draining tempTasks else s.place }
  | _ => none

variable [DecidableEq τ]

def step : LoopOp α τ → Option (EventLoop α τ × Unit)
  | .call caller call => if s.callable caller then some (s.call caller call, ()) else none
  | .wakeup caller => if s.writing caller then some (s.wakeup caller, ()) else none
  | .loop => if s.writing none then none else s.loop.map fun s => (s, ())
  | .epollWait events =>
      if s.writing none then none else (s.epollWait events).map fun s => (s, ())
  | .readWakeup again =>
      if s.writing none then none else (s.readWakeup again).map fun s => (s, ())

def machine : Machine (EventLoop α τ) (LoopOp α τ) Unit := ⟨fun s op => s.step op⟩

inductive Stepped (s : EventLoop α τ) : LoopOp α τ → EventLoop α τ → Prop where
  | call (caller : Option τ) (call : LoopCall α) :
      Stepped s (.call caller call) (s.call caller call)
  | wakeup (caller : Option τ) : Stepped s (.wakeup caller) (s.wakeup caller)
  | head (hplace : s.place = .head) :
      Stepped s .loop { s with place := if s.stopFlag then .exited else .checked }
  | swap (hplace : s.place = .checked) :
      Stepped s .loop { s with pendingTasks := [], place := .draining s.pendingTasks }
  | wait (hplace : s.place = .draining []) : Stepped s .loop { s with place := .waiting }
  | take (callback : LoopCallback α) (tempTasks : List (LoopCallback α))
      (hplace : s.place = .draining (callback :: tempTasks)) :
      Stepped s .loop { s with
        taken := s.taken ++ [callback]
        place := callback.elim (.draining tempTasks) fun task => .running task tempTasks }
  | finish (task : LoopTask α) (tempTasks : List (LoopCallback α))
      (hplace : s.place = .running task tempTasks) :
      Stepped s .loop { s with place := .draining tempTasks }
  | dispatched (hplace : s.place = .dispatching []) : Stepped s .loop { s with place := .head }
  | dispatch (callback : LoopCallback α) (callbacks : List (LoopCallback α))
      (hplace : s.place = .dispatching (callback :: callbacks)) :
      Stepped s .loop { s.push callback with place := .dispatching callbacks }
  | epollWait (events : List (ReadyEvent α)) (hplace : s.place = .waiting) :
      Stepped s (.epollWait events)
        { s with place := .dispatching (events.flatMap ReadyEvent.tasks) }
  | readEmpty (again : Bool) (tempTasks : List (LoopCallback α))
      (hplace : s.place = .running .readWakeup tempTasks) (hcount : s.wakeupFd = 0) :
      Stepped s (.readWakeup again) { s with place := .draining tempTasks }
  | readWakeup (again : Bool) (tempTasks : List (LoopCallback α))
      (hplace : s.place = .running .readWakeup tempTasks) (hcount : s.wakeupFd ≠ 0)
      (hwriting : s.writing none = false) :
      Stepped s (.readWakeup again) { s with
        wakeupFd := 0
        place := if again then .draining tempTasks else s.place }

variable {s} {s' : EventLoop α τ}

theorem stepped_of_loop (h : s.loop = some s') : s.Stepped .loop s' := by
  unfold loop at h
  split at h
  · cases h
    exact .head ‹_›
  · cases h
    exact .swap ‹_›
  · cases h
    exact .wait ‹_›
  · cases h
    exact .take _ _ ‹_›
  · cases h
  · cases h
    exact .finish _ _ ‹_›
  · cases h
  · cases h
    exact .dispatched ‹_›
  · cases h
    exact .dispatch _ _ ‹_›
  · cases h

theorem stepped_of_epollWait {events : List (ReadyEvent α)} (h : s.epollWait events = some s') :
    s.Stepped (.epollWait events) s' := by
  unfold epollWait at h
  split at h
  · split at h
    · cases h
      exact .epollWait events ‹_›
    · cases h
  · cases h

theorem stepped_of_readWakeup {again : Bool} (hwriting : s.writing none = false)
    (h : s.readWakeup again = some s') : s.Stepped (.readWakeup again) s' := by
  unfold readWakeup at h
  split at h
  · split at h
    · cases h
      exact .readEmpty again _ ‹_› ‹_›
    · cases h
      exact .readWakeup again _ ‹_› ‹_› hwriting
  · cases h

theorem stepped_of_step {op : LoopOp α τ} {out : Unit} (h : machine.step s op = some (s', out)) :
    s.Stepped op s' := by
  cases op with
  | call caller call =>
      simp only [machine, step] at h
      split at h
      · cases h
        exact .call caller call
      · cases h
  | wakeup caller =>
      simp only [machine, step] at h
      split at h
      · cases h
        exact .wakeup caller
      · cases h
  | loop =>
      simp only [machine, step] at h
      split at h
      · cases h
      · rcases Option.map_eq_some_iff.1 h with ⟨t, hloop, heq⟩
        cases heq
        exact stepped_of_loop hloop
  | epollWait events =>
      simp only [machine, step] at h
      split at h
      · cases h
      · rcases Option.map_eq_some_iff.1 h with ⟨t, hwait, heq⟩
        cases heq
        exact stepped_of_epollWait hwait
  | readWakeup again =>
      simp only [machine, step] at h
      split at h
      · cases h
      · rename_i hwriting
        rcases Option.map_eq_some_iff.1 h with ⟨t, hread, heq⟩
        cases heq
        exact stepped_of_readWakeup (Bool.eq_false_iff.2 hwriting) hread

end EventLoop

end Rocket
