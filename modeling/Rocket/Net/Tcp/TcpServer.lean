import Rocket.Common.Util
import Rocket.Foundation.Block
import Rocket.Foundation.KeyedStore
import Rocket.Foundation.Word

/-!
# TcpServer, the cache of services

The server caches the addresses of services that it has got from the registry, and picks
one of them at random. The random number comes from a `uniform_int_distribution`, which
says nothing about its result if the bounds are the wrong way round.
-/

namespace Rocket

open Foundation

/-- A `uniform_int_distribution` with the bounds `a` and `b` may return `r`. -/
def UniformMayReturn (a b r : ℤ) : Prop := a ≤ b → a ≤ r ∧ r ≤ b

instance (a b r : ℤ) : Decidable (UniformMayReturn a b r) := inferInstanceAs (Decidable (_ → _))

/-- `TcpServer`, with its cache alone. -/
structure TcpServer where
  serviceCache : Bytes → Option (List Bytes) := fun _ => none

namespace TcpServer

/-- `TcpServer::updateService`. -/
def updateService (s : TcpServer) (serviceName : Bytes) (addr : List Bytes) : TcpServer :=
  ⟨Function.update s.serviceCache serviceName (some addr)⟩

/-- `TcpServer::getServiceAllAddr`. -/
def getServiceAllAddr (s : TcpServer) (serviceName : Bytes) : List Bytes × TcpServer :=
  let (addrs, serviceCache) := subscript s.serviceCache serviceName
  (addrs, ⟨serviceCache⟩)

def cached (s : TcpServer) (name : Bytes) : List Bytes := valueAt s.serviceCache name

/-- The upper bound of the distribution: `size() - 1` is a `size_t`, converted to `int`. -/
def upperBound (s : TcpServer) (serviceName : Bytes) : ℤ :=
  wrap ((subscript s.serviceCache serviceName).1.length - 1)

/-- `TcpServer::getServiceWithLoadBalance`, when the distribution returns `randomIndex`.
The first result is `none` where the vector is read out of bounds. -/
def getServiceWithLoadBalance (s : TcpServer) (serviceName : Bytes) (randomIndex : Int32) :
    Option Bytes × TcpServer :=
  let (_, serviceCache) := subscript s.serviceCache serviceName
  let (addrs, serviceCache) := subscript serviceCache serviceName
  (readCell addrs randomIndex.toInt, ⟨serviceCache⟩)

theorem cached_updateService (s : TcpServer) (name : Bytes) (addr : List Bytes) (other : Bytes) :
    (s.updateService name addr).cached other = if other = name then addr else s.cached other :=
  valueAt_update ..

@[simp] theorem cached_getServiceAllAddr (s : TcpServer) (name other : Bytes) :
    (s.getServiceAllAddr name).2.cached other = s.cached other :=
  valueAt_subscript ..

@[simp] theorem cached_getServiceWithLoadBalance (s : TcpServer) (name : Bytes) (r : Int32)
    (other : Bytes) : (s.getServiceWithLoadBalance name r).2.cached other = s.cached other := by
  simp only [getServiceWithLoadBalance, cached, valueAt_subscript]

theorem getServiceWithLoadBalance_fst (s : TcpServer) (name : Bytes) (r : Int32) :
    (s.getServiceWithLoadBalance name r).1 = readCell (s.cached name) r.toInt := by
  simp only [getServiceWithLoadBalance, cached, subscript_fst, valueAt_subscript]

theorem upperBound_eq (s : TcpServer) (name : Bytes) :
    s.upperBound name = wrap ((s.cached name).length - 1) := by
  rw [upperBound, subscript_fst, cached]

end TcpServer

end Rocket
