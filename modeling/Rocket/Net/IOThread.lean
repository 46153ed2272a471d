import Rocket.Coroutine.CoroutinePool
import Rocket.Net.Tcp.Excute

/-!
# IOThread

An IO thread makes a connection for each client descriptor that is given to it. The
connection takes a coroutine from the pool of the thread, and the coroutine runs
`MainServerLoopCorFunc` until the connection is stopped. The coroutines of the thread
take turns at their hooked calls, so each of them is at its own place of this function.

The pool is made with the first connection, when the thread has made its main coroutine
and no other. The registrations in epoll and the semaphores of the thread are left out.
-/

namespace Rocket

open Foundation

/-- Where the coroutine of a connection is in `MainServerLoopCorFunc`: not yet entered,
before one of the three calls of a round, and returned. -/
inductive ServePlace where
  | created
  | onRead
  | excute
  | onWrite
  | returned
  deriving DecidableEq, Repr

/-- A connection in `m_clients`, with the id of its `m_loop_cor`. -/
structure ServedClient where
  connection : TcpConnection
  loopCor : ℕ
  place : ServePlace := .created

/-- `IOThread`, with the coroutine pool of the thread and the accepted descriptors that
are open. -/
structure IOThread where
  clients : List ServedClient := []
  pool : CoroutinePool
  openFds : List ℤ := []

/-- The next thing that the coroutine of a connection does. The results of the system
calls are those that the call takes. -/
inductive ServeStep where
  | enter
  | onRead (results : List (Hooked ReadResult))
  | excute (fuel : ℕ)
  | onWrite (results : List (Hooked WriteResult))

/-- What happens in the thread: a client is added, whose descriptor the kernel has opened
before, or the coroutine of the client `i` goes on. -/
inductive IOOp where
  | addClient (fd : ℤ)
  | serve (i : ℕ) (step : ServeStep)

namespace ServedClient

/-- The test of the `while` loop. -/
def test (client : ServedClient) : ServedClient :=
  { client with place := if client.connection.stop then .returned else .onRead }

variable {Method Message : Type}

/-- `TcpConnection::MainServerLoopCorFunc`, step by step. -/
def serve (d : RpcDispatcher Method Message) (client : ServedClient) :
    ServeStep → Option ServedClient
  | .enter => if client.place = .created then some client.test else none
  | .onRead results =>
      if client.place = .onRead then do
        let (connection, rest) ← client.connection.onRead results
        if rest.length = 0 then some { client with connection := connection, place := .excute }
        else none
      else none
  | .excute fuel =>
      if client.place = .excute then do
        let (connection, _) ← client.connection.excute d fuel
        some { client with connection := connection, place := .onWrite }
      else none
  | .onWrite results =>
      if client.place = .onWrite then do
        let (connection, _, rest) ← client.connection.onWrite results
        if rest.length = 0 then some { client with connection := connection }.test else none
      else none

end ServedClient

namespace IOThread

def new (poolSize : ℕ) : IOThread where
  pool := .new 1 poolSize

/-- `IOThread::addClient`. The constructor of the connection takes a coroutine from the
pool, and is undefined if it gets a null one. -/
def addClient (t : IOThread) (fd : ℤ) : Option IOThread := do
  let (pool, cor) ← t.pool.getCoroutineInstanse
  let loopCor ← cor
  some
    { clients := t.clients ++ [{ connection := .addClient fd, loopCor := loopCor }]
      pool := pool
      openFds := t.openFds ++ [fd] }

/-- The client `i` is left as `client`. Its coroutine is in its callback until the
function returns. -/
def setClient (t : IOThread) (i : ℕ) (client : ServedClient) : IOThread :=
  { t with
    clients := t.clients.set i client
    pool := { t.pool with
      inCoFunc := Function.update t.pool.inCoFunc client.loopCor (client.place ≠ .returned) } }

/-- The machine of the thread. A descriptor that is open is not given to another client. -/
def machine {Method Message : Type} (d : RpcDispatcher Method Message) :
    Machine IOThread IOOp Unit where
  step t
    | .addClient fd => if fd ∈ t.openFds then none else (t.addClient fd).map fun t' => (t', ())
    | .serve i step => do
        let client ← t.clients[i]?
        let client' ← client.serve d step
        some (t.setClient i client', ())

end IOThread

end Rocket
