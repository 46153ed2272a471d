import Rocket.Common.Util

/-!
# RpcController

The controller of a call: its message id and the error it carries. The addresses,
which only the log prints, the timeout and the cancel flag are left out.
-/

namespace Rocket

/-- `RpcController`. -/
@[ext] structure RpcController where
  errorCode : Int32 := 0
  errorInfo : Bytes := []
  msgId : Bytes := []
  isFailed : Bool := false
  deriving DecidableEq, Repr

namespace RpcController

def setError (c : RpcController) (errorCode : Int32) (errorInfo : Bytes) : RpcController :=
  { c with errorCode := errorCode, errorInfo := errorInfo, isFailed := true }

/-- `SetFailed` sets the text and nothing else. -/
def setFailed (c : RpcController) (reason : Bytes) : RpcController :=
  { c with errorInfo := reason }

/-- `Reset`: every field gets its default. -/
def reset (_ : RpcController) : RpcController := {}

def setMsgId (c : RpcController) (msgId : Bytes) : RpcController := { c with msgId := msgId }

end RpcController

end Rocket
