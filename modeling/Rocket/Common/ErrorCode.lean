import Mathlib.Data.Nat.Notation

/-!
# Error codes

The codes of `error_code.h`. The prefix is pasted in front of four digits, so
`SYS_ERROR_PREFIX(0001)` is the decimal number `10000001`.
-/

namespace Rocket

def errorPeerClosed : Int32 := 10000000

def errorFailedConnect : Int32 := 10000001

def errorFailedDeserialize : Int32 := 10000003

def errorFailedSerialize : Int32 := 10000004

def errorFailedEncode : Int32 := 10000005

def errorRpcCallTimeout : Int32 := 10000007

def errorServiceNotFound : Int32 := 10000008

def errorMethodNotFound : Int32 := 10000009

def errorParseServiceName : Int32 := 10000010

def errorRpcChannelInit : Int32 := 10000011

end Rocket
