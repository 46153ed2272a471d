import Rocket.Common.Util
import Rocket.Foundation.KeyedStore

/-!
# RpcRegistry

The registry keeps the addresses of each service in the order of their registration. A
lookup of a service that is not known leaves an entry without addresses. The counters,
which no function reads, are left out. Each function holds the mutex while it uses the
map.
-/

namespace Rocket

open Foundation

/-- `RpcRegistry`. -/
structure RpcRegistry where
  allService : Bytes → Option (List Bytes) := fun _ => none

namespace RpcRegistry

/-- `RpcRegistry::registerServer`. -/
def registerServer (r : RpcRegistry) (serviceName serviceIpAndPort : Bytes) : RpcRegistry :=
  let (addrs, allService) := subscript r.allService serviceName
  ⟨Function.update allService serviceName (some (addrs ++ [serviceIpAndPort]))⟩

/-- `RpcRegistry::getTargetAddr`: the addresses are added to the response. -/
def getTargetAddr (r : RpcRegistry) (targetServiceName : Bytes) (response : List Bytes) :
    List Bytes × RpcRegistry :=
  let (addrs, allService) := subscript r.allService targetServiceName
  (response ++ addrs, ⟨allService⟩)

def addrs (r : RpcRegistry) (name : Bytes) : List Bytes := valueAt r.allService name

@[simp] theorem getTargetAddr_fst (r : RpcRegistry) (name : Bytes) (response : List Bytes) :
    (r.getTargetAddr name response).1 = response ++ r.addrs name := by
  simp only [getTargetAddr, subscript_fst, addrs]

@[simp] theorem addrs_getTargetAddr (r : RpcRegistry) (name : Bytes) (response : List Bytes)
    (other : Bytes) : (r.getTargetAddr name response).2.addrs other = r.addrs other :=
  valueAt_subscript r.allService name other

theorem addrs_registerServer (r : RpcRegistry) (name addr other : Bytes) :
    (r.registerServer name addr).addrs other =
      if other = name then r.addrs name ++ [addr] else r.addrs other := by
  simp only [registerServer, addrs, subscript_fst, valueAt_update, valueAt_subscript]

end RpcRegistry

end Rocket
