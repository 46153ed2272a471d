import Rocket.Net.Coder.TinyPBProtocol
import Rocket.Net.Tcp.TcpBuffer

/-!
# TcpConnection

A connection with its two buffers, its state and the replies it has received.
What `read` and `write` return is given as a list of results, in the order of
the calls; a function that makes system calls takes the results it needs off
the front of the list. Both calls are hooked: they may suspend the coroutine,
and the timer of a client call may fire meanwhile.

The registrations in epoll and the addresses, which only the log and the
controller of a service read, are left out.
-/

namespace Rocket

open Foundation

inductive TcpState where
  | notConnected
  | connected
  | halfClosing
  | closed
  deriving DecidableEq, Repr

inductive TcpConnectionType where
  | byServer
  | byClient
  deriving DecidableEq, Repr

/-- What a hooked system call returns, and whether the timer has fired before
it returned. -/
structure Hooked (α : Type) where
  result : α
  overTime : Bool := false
  deriving DecidableEq, Repr

/-- What `read` returns: bytes, 0 at the end of the stream, or -1 with the
`errno` `EAGAIN` or another one. -/
inductive ReadResult where
  | bytes (bs : Bytes)
  | eof
  | eagain
  | error
  deriving DecidableEq, Repr

/-- What `write` returns: the number of bytes accepted, or -1 with the `errno`
`EAGAIN` or another one. -/
inductive WriteResult where
  | accepted (n : ℕ)
  | eagain
  | error
  deriving DecidableEq, Repr

/-- `TcpConnection`. `replyMsg` is the map from message ids to replies. -/
structure TcpConnection where
  fd : ℤ
  connectionType : TcpConnectionType
  state : TcpState
  stop : Bool := false
  isOverTime : Bool := false
  inBuffer : TcpBuffer
  outBuffer : TcpBuffer
  replyMsg : Bytes → Option TinyPBProtocol := fun _ => none

namespace TcpConnection

/-- `TcpConnection::TcpConnection`. -/
def new (fd : ℤ) (bufferSize : ℕ) (connectionType : TcpConnectionType) : TcpConnection where
  fd := fd
  connectionType := connectionType
  state := if connectionType = .byServer then .connected else .notConnected
  inBuffer := .new bufferSize
  outBuffer := .new bufferSize

/-- The connection that `IOThread::addClient` makes for a client descriptor. -/
def addClient (fd : ℤ) : TcpConnection := new fd 128 .byServer

def setState (c : TcpConnection) (state : TcpState) : TcpConnection := { c with state := state }

def setOverTimeFlag (c : TcpConnection) (value : Bool) : TcpConnection :=
  { c with isOverTime := value }

def clear (c : TcpConnection) : TcpConnection :=
  if c.state = .closed then c else { c with stop := true, state := .closed }

/-- The timer callback of a client call sets the flag. -/
def fire (c : TcpConnection) (overTime : Bool) : TcpConnection :=
  { c with isOverTime := c.isOverTime || overTime }

/-- A full in-buffer is made twice as large. The new size is a `size_t`,
converted to `int`. -/
def growInBuffer (b : TcpBuffer) : Option TcpBuffer :=
  if b.writeAble = 0 then b.resizeBuffer (wrap (2 * b.buffer.length)) else some b

/-- The `while` loop of `onRead`. The second result is `is_close`. `read` returns
at least one byte and no more than it was asked for. -/
def onReadLoop : List (Hooked ReadResult) → TcpConnection →
    Option (TcpConnection × Bool × List (Hooked ReadResult))
  | [], _ => none
  | r :: results, c => do
      let b ← growInBuffer c.inBuffer
      let readCount := b.writeAble
      let c := fire { c with inBuffer := b } r.overTime
      match r.result with
      | .bytes bs =>
          if bs = [] ∨ (bs.length : ℤ) > readCount then none
          else do
            let b' ← b.receive bs
            if (bs.length : ℤ) = readCount then onReadLoop results { c with inBuffer := b' }
            else some ({ c with inBuffer := b' }, false, results)
      | .eof => some (c, true, results)
      | .eagain => some (c, false, results)
      | .error => onReadLoop results c

/-- `TcpConnection::onRead`. -/
def onRead (c : TcpConnection) (results : List (Hooked ReadResult)) :
    Option (TcpConnection × List (Hooked ReadResult)) :=
  if c.state ≠ .connected then some (c, results)
  else
    (onReadLoop results c).map fun (c', isClose, rest) =>
      (if isClose then c'.clear else c', rest)

/-- The `while` loop of `onWrite`, with the bytes the socket has accepted.
`write` is given the bytes from the read index on, and accepts no more than
these. -/
def onWriteLoop : List (Hooked WriteResult) → TcpConnection →
    Option (TcpConnection × Bytes × List (Hooked WriteResult))
  | results, c =>
      if c.outBuffer.readAble = 0 then some (c, [], results)
      else
        match results with
        | [] => none
        | r :: results => do
            let writeSize := c.outBuffer.readAble
            let buf ← readBlock c.outBuffer.buffer c.outBuffer.readIndex writeSize
            let c := fire c r.overTime
            match r.result with
            | .accepted n =>
                if (n : ℤ) > writeSize then none
                else if (n : ℤ) = writeSize then some (c, buf, results)
                else if c.isOverTime then some (c, buf.take n, results)
                else
                  let (c', accepted, rest) ← onWriteLoop results c
                  some (c', buf.take n ++ accepted, rest)
            | .eagain => some (c, [], results)
            | .error => if c.isOverTime then some (c, [], results) else onWriteLoop results c

/-- `TcpConnection::onWrite`. -/
def onWrite (c : TcpConnection) (results : List (Hooked WriteResult)) :
    Option (TcpConnection × Bytes × List (Hooked WriteResult)) :=
  if c.isOverTime then some (c, [], results)
  else if c.state ≠ .connected then some (c, [], results)
  else onWriteLoop results c

/-- `TcpConnection::getResPackageData`: the reply is taken out of the map. -/
def getResPackageData (c : TcpConnection) (msgId : Bytes) :
    Option (TinyPBProtocol × TcpConnection) :=
  (c.replyMsg msgId).map fun m =>
    (m, { c with replyMsg := Function.update c.replyMsg msgId none })

end TcpConnection

end Rocket
