import Mathlib.Data.Finset.Basic
import Rocket.Foundation.Machine

/-!
# The epoll set of an event loop

The kernel keeps the set of the registered descriptors, and takes a descriptor off it
when it is closed. The loop remembers in `m_listen_fds` which descriptors it has
registered, to choose between `EPOLL_CTL_ADD` and `EPOLL_CTL_MOD`. A `TcpClient` closes
its socket when a call fails, and when it is destroyed.

A step is one call that a thread makes in its event loop. A hooked call that suspends
the coroutine is two of them: `toEpoll`, and what follows when the coroutine goes on.
The handlers of the events are left out.
-/

namespace Rocket

open Foundation

/-- `FdEvent::TriggerEvent`. -/
inductive TriggerEvent where
  | inEvent
  | outEvent
  deriving DecidableEq, Repr

/-- The bits `EPOLLIN` and `EPOLLOUT` of `m_listen_events`. -/
structure EpollEvents where
  epollIn : Bool := false
  epollOut : Bool := false
  deriving DecidableEq, Repr

namespace EpollEvents

def set (events : EpollEvents) (b : Bool) : TriggerEvent → EpollEvents
  | .inEvent => { events with epollIn := b }
  | .outEvent => { events with epollOut := b }

def has (events : EpollEvents) : TriggerEvent → Bool
  | .inEvent => events.epollIn
  | .outEvent => events.epollOut

@[simp] theorem has_set (events : EpollEvents) (b : Bool) (ev : TriggerEvent) :
    (events.set b ev).has ev = b := by
  cases ev <;> rfl

end EpollEvents

/-- `FdEvent` -/
structure FdEvent where
  fd : ℕ
  listenEvents : EpollEvents := {}
  deriving DecidableEq, Repr

/-- The socket of a `TcpClient`, unless `socket` has failed, and the descriptor of
`m_fd_event`, which the constructor sets. -/
structure ClientSocket where
  fd : Option ℕ
  fdEvent : Option ℕ
  deriving DecidableEq, Repr

inductive EpollCtl where
  | add
  | mod
  | del
  deriving DecidableEq, Repr

/-- The thread of an event loop: the open descriptors and the epoll set, which the kernel
keeps; `m_listen_fds`; the events of the `FdEventGroup`; and the clients. -/
structure EpollRun where
  openFds : Finset ℕ
  registered : ℕ → Option EpollEvents := fun _ => none
  listenFds : Finset ℕ := ∅
  fdGroup : ℕ → EpollEvents := fun _ => {}
  clients : ℕ → Option ClientSocket := fun _ => none

/-- What the calls of `epoll_ctl` have returned, and for a coroutine that is about to
yield whether the descriptor is registered for its event. -/
structure EpollOutput where
  results : List Bool := []
  waits : Option Bool := none
  deriving DecidableEq, Repr

/-- The operations that were chosen have succeeded, and a coroutine that yields is
registered. -/
def EpollOutput.Succeeds (out : EpollOutput) : Prop :=
  (∀ rt ∈ out.results, rt = true) ∧ out.waits ≠ some false

namespace EpollRun

variable (s : EpollRun)

/-- `epoll_ctl` -/
def epollCtl (op : EpollCtl) (event : FdEvent) : EpollRun × Bool :=
  let register (events : Option EpollEvents) : EpollRun :=
    { s with registered := Function.update s.registered event.fd events }
  let isRegistered := (s.registered event.fd).isSome
  if event.fd ∉ s.openFds then (s, false)
  else
    match op with
    | .add => if isRegistered then (s, false) else (register (some event.listenEvents), true)
    | .mod => if isRegistered then (register (some event.listenEvents), true) else (s, false)
    | .del => if isRegistered then (register none, true) else (s, false)

/-- `close` takes the descriptor off the epoll set. -/
def close (fd : ℕ) : EpollRun :=
  if fd ∈ s.openFds then
    { s with
      openFds := s.openFds.erase fd
      registered := Function.update s.registered fd none }
  else s

def opened (fd : ℕ) : Option EpollRun :=
  if fd ∈ s.openFds then none else some { s with openFds := insert fd s.openFds }

/-- `socket` returns a free descriptor, or fails. -/
def socket : Option ℕ → Option EpollRun
  | none => some s
  | some fd => s.opened fd

def setClient (c : ℕ) (client : Option ClientSocket) : EpollRun :=
  { s with clients := Function.update s.clients c client }

/-- `ADD_TO_EPOLL` -/
def addToEpoll (event : FdEvent) : EpollRun × Bool :=
  let op := if event.fd ∈ s.listenFds then .mod else .add
  let (s, rt) := s.epollCtl op event
  ({ s with listenFds := insert event.fd s.listenFds }, rt)

/-- `DELETE_FROM_EPOLL` -/
def deleteFromEpoll (event : FdEvent) : EpollRun × List Bool :=
  if event.fd ∉ s.listenFds then (s, [])
  else
    let (s, rt) := s.epollCtl .del event
    ({ s with listenFds := s.listenFds.erase event.fd }, [rt])

def listen (fd : ℕ) (ev : TriggerEvent) (b : Bool) : EpollRun × Bool :=
  let events := (s.fdGroup fd).set b ev
  { s with fdGroup := Function.update s.fdGroup fd events }.addToEpoll ⟨fd, events⟩

/-- `toEpoll`. The coroutine yields next. -/
def toEpoll (fd : ℕ) (ev : TriggerEvent) : EpollRun × EpollOutput :=
  let (s, rt) := s.listen fd ev true
  (s, { results := [rt], waits := some ((s.registered fd).any (·.has ev)) })

/-- `TcpClient::TcpClient` -/
def newClient (c : ℕ) (fd : Option ℕ) : Option EpollRun :=
  (s.socket fd).map fun s => s.setClient c (some ⟨fd, fd⟩)

/-- What `sendAndRecvTinyPb` does with the socket of a call that has failed. -/
def reopenClient (c : ℕ) (client : ClientSocket) (fd : Option ℕ) :
    Option (EpollRun × List Bool) :=
  client.fdEvent.bind fun fdEvent =>
    let (s, results) := s.deleteFromEpoll ⟨fdEvent, s.fdGroup fdEvent⟩
    let s := client.fd.elim s s.close
    (s.socket fd).map fun s => (s.setClient c (some { client with fd := fd }), results)

/-- `TcpClient::~TcpClient` -/
def destroyClient (c : ℕ) (client : ClientSocket) : EpollRun :=
  let s := match client.fd with
    | some fd => if fd > 0 then s.close fd else s
    | none => s
  s.setClient c none

end EpollRun

/-- What a thread does in its event loop. `resumed` is what follows in a hooked call
when the coroutine goes on, `newClient` and `reopenClient` give the descriptor that
`socket` returns, and `opened` is a descriptor that somebody else has opened. -/
inductive EpollOp where
  | addEpollEvent (event : FdEvent)
  | deleteEpollEvent (event : FdEvent)
  | toEpoll (fd : ℕ) (ev : TriggerEvent)
  | resumed (fd : ℕ) (ev : TriggerEvent)
  | newClient (c : ℕ) (fd : Option ℕ)
  | reopenClient (c : ℕ) (fd : Option ℕ)
  | destroyClient (c : ℕ)
  | opened (fd : ℕ)
  deriving DecidableEq, Repr

namespace EpollRun

def step (s : EpollRun) : EpollOp → Option (EpollRun × EpollOutput)
  | .addEpollEvent event =>
      let (s, rt) := s.addToEpoll event
      some (s, { results := [rt] })
  | .deleteEpollEvent event =>
      let (s, results) := s.deleteFromEpoll event
      some (s, { results := results })
  | .toEpoll fd ev => some (s.toEpoll fd ev)
  | .resumed fd ev =>
      let (s, rt) := s.listen fd ev false
      some (s, { results := [rt] })
  | .newClient c fd =>
      if (s.clients c).isSome then none else (s.newClient c fd).map fun s => (s, {})
  | .reopenClient c fd =>
      (s.clients c).bind fun client =>
        (s.reopenClient c client fd).map fun (s, results) => (s, { results := results })
  | .destroyClient c => (s.clients c).map fun client => (s.destroyClient c client, {})
  | .opened fd => (s.opened fd).map fun s => (s, {})

def machine : Machine EpollRun EpollOp EpollOutput := ⟨step⟩

/-- A descriptor is in `m_listen_fds` iff it is in the epoll set. -/
def Mirrored (s : EpollRun) : Prop := ∀ fd, fd ∈ s.listenFds ↔ (s.registered fd).isSome = true

end EpollRun

end Rocket
