import Rocket.Common.ErrorCode
import Rocket.Net.Tcp.Excute

/-!
# TcpClient

`sendAndRecvTinyPb` connects, sends the out-buffer, and reads until the reply
with the given message id has arrived. It has six ways out: the reply, a refused
connection, a timeout while connecting, writing or reading, and a peer that has
closed.

What the system does during a call is given as a `Script`: the results of the
hooked calls, one after the other, with the moment at which the timer of the call
fires. A timer event that a call leaves behind is kept in `timerEvents`; what the
timer of the loop does with it later is the subject of `CallTimer`.
The local address and the registrations in epoll are left out.
-/

namespace Rocket

open Foundation

/-- What `connect` returns: 0, or -1 with the `errno` `ECONNREFUSED` or another
one. -/
inductive ConnectResult where
  | success
  | refused
  | failed
  deriving DecidableEq, Repr

/-- What the system does during a call. `socket` is the descriptor of the socket
that is opened when the first one is given up, and `sysError` the text of
`strerror(errno)`. -/
structure Script where
  connects : List (Hooked ConnectResult)
  writes : List (Hooked WriteResult)
  reads : List (Hooked ReadResult)
  socket : ℤ
  sysError : Bytes
  deriving DecidableEq, Repr

/-- `TcpClient`. `peerAddr` is the text of the address of the peer, `fdEvent` the
descriptor of `m_fd_event`, and `isSocketConnected` says whether the socket `fd`
is connected. -/
structure TcpClient where
  peerAddr : Bytes
  fd : ℤ
  fdEvent : ℤ
  isSocketConnected : Bool := false
  timerEvents : List ℕ := []
  timerEventCount : ℕ := 0
  connection : TcpConnection
  connectErrorCode : Int32 := 0
  connectErrorInfo : Bytes := []

/-- A call of `sendAndRecvTinyPb`: the client, the timer event of the call, and
the variable `is_timeout`. -/
structure ClientCall where
  client : TcpClient
  event : ℕ
  isTimeout : Bool := false

/-- What `sendAndRecvTinyPb` returns, what it leaves in `res`, and the bytes that
the socket has accepted. -/
structure Received where
  rt : Int32
  res : Option TinyPBProtocol := none
  sent : Bytes := []
  deriving DecidableEq, Repr

namespace TcpClient

/-- `TcpClient::TcpClient`, when `socket` returns `fd`. -/
def new (peerAddr : Bytes) (fd : ℤ) : TcpClient where
  peerAddr := peerAddr
  fd := fd
  fdEvent := fd
  connection := .new fd 128 .byClient

def startCall (client : TcpClient) : ClientCall where
  client := { client with
    timerEvents := client.timerEventCount :: client.timerEvents
    timerEventCount := client.timerEventCount + 1 }
  event := client.timerEventCount

end TcpClient

namespace ClientCall

/-- `Timer::deleteTimerEvent` -/
def deleteTimerEvent (call : ClientCall) : TcpClient :=
  { call.client with timerEvents := call.client.timerEvents.erase call.event }

/-- A hooked call returns to a connection `c`. When the timer has fired meanwhile,
its callback has set `is_timeout`, and its event is no longer pending. -/
def resume (call : ClientCall) (c : TcpConnection) (fired : Bool) : ClientCall where
  client := { call.client with
    timerEvents := if fired then call.client.timerEvents.erase call.event
      else call.client.timerEvents
    connection := c }
  event := call.event
  isTimeout := call.isTimeout || fired

/-- The code behind the label `err_deal`. -/
def errDeal (call : ClientCall) (socket : ℤ) : TcpClient × Received :=
  let client := { call.client with fd := socket, isSocketConnected := false }
  if call.isTimeout then
    ({ client with
        connectErrorInfo := ascii "call rpc falied, over 10000 ms"
        connectErrorCode := errorRpcCallTimeout
        connection := client.connection.setOverTimeFlag false }, { rt := errorRpcCallTimeout })
  else
    ({ client with
        connectErrorInfo := ascii "call rpc falied, peer closed [" ++ client.peerAddr ++ ascii "]"
        connectErrorCode := errorPeerClosed }, { rt := errorPeerClosed })

/-- The branch for `ECONNREFUSED`. -/
def connectRefused (call : ClientCall) (script : Script) : TcpClient × Received :=
  ({ call.deleteTimerEvent with
      fd := script.socket
      isSocketConnected := false
      connectErrorCode := errorPeerClosed
      connectErrorInfo := ascii "connect refused, sys error = " ++ script.sysError },
    { rt := errorPeerClosed })

def connectFailed (call : ClientCall) (script : Script) : TcpClient × Received :=
  ({ call.deleteTimerEvent with
      connectErrorCode := errorFailedConnect
      connectErrorInfo := ascii "connect peer addr[" ++ call.client.peerAddr ++
        ascii "] error. sys error=" ++ script.sysError },
    { rt := errorFailedConnect })

/-- How the loop that connects is left: by `break`, by `goto err_deal`, or by
the `return` for a refused connection. -/
inductive ConnectExit where
  | connected
  | timeout
  | refused
  deriving DecidableEq, Repr

/-- The timer has fired during one of the calls that have taken their results from
`results` and left `rest`. -/
def fired {α : Type} (results rest : List (Hooked α)) : Bool :=
  (results.take (results.length - rest.length)).any Hooked.overTime

/-- The `while` loop that connects. -/
def connectLoop : List (Hooked ConnectResult) → ClientCall → Option (ClientCall × ConnectExit)
  | results, call =>
      if call.client.connection.state = .connected then some (call, .connected)
      else
        match results with
        | [] => none
        | r :: results =>
            let call := call.resume (call.client.connection.fire r.overTime) r.overTime
            match r.result with
            | .success =>
                some ({ call with
                  client.isSocketConnected := true
                  client.connection := call.client.connection.setState .connected }, .connected)
            | .refused => some (call, if call.isTimeout then .timeout else .refused)
            | .failed =>
                if call.isTimeout then some (call, .timeout) else connectLoop results call

section Reply

variable {Method Message : Type} (d : RpcDispatcher Method Message) (fuel : ℕ)

/-- The body of the `while` loop that waits for the reply. -/
def replyBody (msgId : Bytes) (socket : ℤ) (s : ClientCall × List (Hooked ReadResult)) :
    Pass (ClientCall × List (Hooked ReadResult)) (TcpClient × Received) :=
  match s.1.client.connection.getResPackageData msgId with
  | some (res, c) =>
      .leave ({ s.1.deleteTimerEvent with connection := c, connectErrorInfo := [] },
        { rt := 0, res := some res })
  | none =>
      match s.1.client.connection.onRead s.2 with
      | none => .undefined
      | some (c, rest) =>
          let call := s.1.resume c (fired s.2 rest)
          if c.isOverTime then .leave (errDeal { call with isTimeout := true } socket)
          else if c.state = .closed then .leave (errDeal call socket)
          else
            match c.excute d fuel with
            | none => .undefined
            | some (c', _) => .again ({ call with client.connection := c' }, rest)

/-- The part of `sendAndRecvTinyPb` behind the loop that connects. -/
def sendAndRecv (msgId : Bytes) (script : Script) (call : ClientCall) :
    Option (TcpClient × Received) :=
  if call.client.connection.state ≠ .connected then some (call.connectFailed script)
  else do
    let (c, sent, rest) ←
      (call.client.connection.setState .connected).onWrite script.writes
    let call := call.resume c (fired script.writes rest)
    let exit :=
      if c.isOverTime then some (errDeal { call with isTimeout := true } script.socket)
      else Loop.run (replyBody d fuel msgId script.socket) fuel (call, script.reads)
    exit.map fun (client, received) => (client, { received with sent := sent })

end Reply

end ClientCall

/-- `TcpClient::sendAndRecvTinyPb`, for at most `fuel` rounds of reading and as
many passes of `decode`. -/
def TcpClient.sendAndRecvTinyPb {Method Message : Type} (client : TcpClient)
    (d : RpcDispatcher Method Message) (fuel : ℕ) (msgId : Bytes) (script : Script) :
    Option (TcpClient × Received) := do
  let (call, exit) ← ClientCall.connectLoop script.connects client.startCall
  match exit with
  | .connected => call.sendAndRecv d fuel msgId script
  | .timeout => some (call.errDeal script.socket)
  | .refused => some (call.connectRefused script)

end Rocket
