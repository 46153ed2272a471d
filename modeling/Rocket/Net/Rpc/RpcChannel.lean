import Rocket.Common.Log
import Rocket.Foundation.Machine
import Rocket.Net.Tcp.TcpClient

/-!
# RpcChannel

`CallMethod` encodes a request into the out-buffer of the client of the channel,
lets the client send it and wait for the reply, and turns what comes back into a
response or an error of the controller.

The messages belong to protobuf: a call brings what serializing its request and
parsing its response do. The objects that `Init` keeps alive are left out, and so
are the addresses.

Of the log only one line has a part in the model: the one for a reply that carries an
error has two conversions more than arguments, so a call that comes to it is not defined.
-/

namespace Rocket

open Foundation

/-- `RpcChannel`. -/
structure RpcChannel where
  isInit : Bool := false
  client : TcpClient

/-- The arguments of `CallMethod`. `genMsgId` is what `MsgIDUtil::GenMsgID`
returns, and `hasDone` says whether `done` is a closure or null. -/
structure MethodCall (Message : Type) where
  fullName : Bytes
  controller : RpcController
  /-- `request->SerializeToString`: whether it succeeds, and the string it leaves -/
  serializeToString : Bool × Bytes
  /-- `response->ParseFromString` -/
  parseFromString : Bytes → Option Message
  hasDone : Bool
  genMsgId : Bytes

/-- What a call leaves: the controller, the message parsed into `response`, how
often `done` has been run, and what `sendAndRecvTinyPb` has returned if it was
called. -/
structure CallResult (Message : Type) where
  controller : RpcController
  response : Option Message := none
  doneRuns : ℕ := 0
  received : Option Received := none

namespace MethodCall

variable {Message : Type}

def msgId (call : MethodCall Message) : Bytes :=
  if call.controller.msgId = [] then call.genMsgId else call.controller.msgId

def controllerWithId (call : MethodCall Message) : RpcController :=
  if call.controller.msgId = [] then call.controller.setMsgId call.genMsgId else call.controller

def request (call : MethodCall Message) : TinyPBProtocol where
  msgId := call.msgId
  methodName := call.fullName
  pbData := call.serializeToString.2

end MethodCall

namespace RpcChannel

/-- `RpcChannel::RpcChannel`, when `socket` returns `fd`. -/
def new (peerAddr : Bytes) (fd : ℤ) : RpcChannel where
  client := .new peerAddr fd

/-- `RpcChannel::Init`. -/
def init (channel : RpcChannel) : RpcChannel := { channel with isInit := true }

variable {Method Message : Type} {Message' : Type}

/-- The end of `CallMethod`, when `sendAndRecvTinyPb` has returned `received`. -/
def finish (level : LogLevel) (client : TcpClient) (controller : RpcController)
    (call : MethodCall Message) (received : Received) : Option (CallResult Message) :=
  if received.rt ≠ 0 then
    some
      { controller := controller.setError received.rt client.connectErrorInfo
        received := some received }
  else do
    let res ← received.res
    match call.parseFromString res.pbData with
    | none =>
        some
          { controller := controller.setError errorFailedDeserialize
              (ascii "failed to deserialize data from server")
            received := some received }
    | some response =>
        if res.errCode ≠ 0 then
          -- The format of this `ERRORLOG` has five conversions, and there are three arguments.
          if level.logsErrors then none
          else
            some
              { controller := controller.setError res.errCode res.errInfo
                response := some response
                received := some received }
        else
          some
            { controller := controller
              response := some response
              doneRuns := if call.hasDone then 1 else 0
              received := some received }

/-- `RpcChannel::CallMethod`, when the global logger has the given level. -/
def callMethod (channel : RpcChannel) (level : LogLevel) (d : RpcDispatcher Method Message')
    (fuel : ℕ) (call : MethodCall Message) (script : Script) :
    Option (RpcChannel × CallResult Message) :=
  let controller := call.controllerWithId
  if !channel.isInit then
    some (channel,
      { controller := controller.setError errorRpcChannelInit (ascii "RpcChannel not init") })
  else if !call.serializeToString.1 then
    some (channel,
      { controller := controller.setError errorFailedSerialize (ascii "failed to serialize") })
  else do
    let (messages, outBuffer) ←
      TinyPBCoder.encode [call.request] channel.client.connection.outBuffer
    let request ← messages.head?
    let channel := { channel with client.connection.outBuffer := outBuffer }
    if !request.parseSuccess then
      some (channel,
        { controller := controller.setError errorFailedEncode (ascii "encode tinypb data error") })
    else
      let (client, received) ← channel.client.sendAndRecvTinyPb d fuel request.msgId script
      (finish level client controller call received).map fun result =>
        ({ channel with client := client }, result)

/-- What is done with a channel: `Init`, or a call. -/
inductive Op (Message : Type) where
  | init
  | call (fuel : ℕ) (call : MethodCall Message) (script : Script)

def step (level : LogLevel) (d : RpcDispatcher Method Message') (channel : RpcChannel) :
    Op Message → Option (RpcChannel × Option (CallResult Message))
  | .init => some (channel.init, none)
  | .call fuel call script =>
      (channel.callMethod level d fuel call script).map fun (channel', result) =>
        (channel', some result)

def machine (level : LogLevel) (d : RpcDispatcher Method Message') :
    Machine RpcChannel (Op Message) (Option (CallResult Message)) := ⟨step level d⟩

end RpcChannel

end Rocket
