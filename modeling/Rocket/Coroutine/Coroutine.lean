import Mathlib.Logic.Function.Basic
import Rocket.Foundation.Machine

/-!
# Coroutine

The coroutines of one thread. What a coroutine does is given as a script: steps of
its own, `Yield`, `Resume` and `setCallBack`. So is what the main context does. A
saved context is a place in such a script, and `coctx_swap` stores the place of the
context that runs and goes on at the one that has been stored.

The model begins when `t_main_coroutine` has been made. Its null values, the run
time of a coroutine and its stack are left out. What the code does not define has no
step: going on with a context that is zeroed, or with one whose callback has
returned.
-/

namespace Rocket

open Foundation

/-- A pointer to a coroutine: the main one, or one of those of the user. -/
inductive CorPtr (ι : Type) where
  | main
  | cor (k : ι)
  deriving DecidableEq, Repr

/-- An action of a script. `ι` are the coroutines, `α` the steps of their own, and `β`
the callbacks. -/
inductive CorAction (ι α β : Type) where
  | step (a : α)
  | yield
  | resume (co : Option (CorPtr ι))
  | setCallBack (co : CorPtr ι) (cb : β)
  deriving DecidableEq, Repr

/-- A place to go on at: the entry of `CoFunction`, the script of the main context or
of a callback with what is left of it, or the end of `CoFunction`. -/
inductive CorPlace (ι α β : Type) where
  | start
  | running (rest : List (CorAction ι α β))
  | returned
  deriving DecidableEq, Repr

/-- `coctx`: a place on the stack of the coroutine `co`. -/
structure Coctx (ι α β : Type) where
  co : CorPtr ι
  place : CorPlace ι α β
  deriving DecidableEq, Repr

/-- `Coroutine`. A zeroed `m_coctx` is `none`. -/
structure Coroutine (ι α β : Type) where
  callBack : Option β := none
  coctx : Option (Coctx ι α β) := none
  isInCoFunc : Bool := false
  canResume : Bool := true
  deriving DecidableEq, Repr

/-- What a step of the thread does: `CoFunction` enters a callback or returns from it,
or an action is executed. The flag says whether `Yield` or `Resume` has switched, and
what `setCallBack` returns. -/
inductive CorEvent (ι α β : Type) where
  | entered (co : CorPtr ι) (cb : β)
  | did (co : CorPtr ι) (a : CorAction ι α β) (ok : Bool)
  | returned (co : CorPtr ι)
  deriving DecidableEq, Repr

/-- A thread: `t_cur_coroutine`, the place that is executed, and the coroutines. -/
structure CorThread (ι α β : Type) where
  tCur : CorPtr ι
  cpu : Coctx ι α β
  cors : CorPtr ι → Coroutine ι α β

namespace CorThread

variable {ι α β : Type}

/-- A thread that is about to execute the script `script` as its main context. -/
def new (script : List (CorAction ι α β)) : CorThread ι α β where
  tCur := .main
  cpu := ⟨.main, .running script⟩
  cors _ := {}

variable [DecidableEq ι]

/-- `Coroutine::IsMainCoroutine` -/
def isMainCoroutine (s : CorThread ι α β) : Bool := s.tCur = .main

def set (s : CorThread ι α β) (co : CorPtr ι) (c : Coroutine ι α β) : CorThread ι α β :=
  { s with cors := Function.update s.cors co c }

@[simp] theorem cors_set (s : CorThread ι α β) (co : CorPtr ι) (c : Coroutine ι α β) :
    (s.set co c).cors = Function.update s.cors co c := rfl

@[simp] theorem cpu_set (s : CorThread ι α β) (co : CorPtr ι) (c : Coroutine ι α β) :
    (s.set co c).cpu = s.cpu := rfl

@[simp] theorem tCur_set (s : CorThread ι α β) (co : CorPtr ι) (c : Coroutine ι α β) :
    (s.set co c).tCur = s.tCur := rfl

/-- `coctx_swap(&co->m_coctx, &co'->m_coctx)`, called from the place `here`. -/
def coctxSwap (s : CorThread ι α β) (co co' : CorPtr ι) (here : Coctx ι α β) :
    Option (CorThread ι α β) :=
  let s := s.set co { s.cors co with coctx := some here }
  (s.cors co').coctx.map fun cpu => { s with cpu := cpu }

/-- `Coroutine::setCallBack` -/
def setCallBack (s : CorThread ι α β) (co : CorPtr ι) (cb : β) : CorThread ι α β × Bool :=
  if co = .main then (s, false)
  else if (s.cors co).isInCoFunc then (s, false)
  else
    (s.set co { s.cors co with
      callBack := some cb
      coctx := some ⟨co, .start⟩
      canResume := true }, true)

/-- `Coroutine::Yield`, called from the place `here`. -/
def yield (s : CorThread ι α β) (here : Coctx ι α β) : Option (CorThread ι α β × Bool) :=
  if s.tCur = .main then some ({ s with cpu := here }, false)
  else
    let co := s.tCur
    ({ s with tCur := .main }.coctxSwap co .main here).map fun s => (s, true)

/-- `Coroutine::Resume`, called from the place `here`. -/
def resume (s : CorThread ι α β) (co : Option (CorPtr ι)) (here : Coctx ι α β) :
    Option (CorThread ι α β × Bool) :=
  if s.tCur ≠ .main then some ({ s with cpu := here }, false)
  else
    match co with
    | none => some ({ s with cpu := here }, false)
    | some co =>
        if !(s.cors co).canResume then some ({ s with cpu := here }, false)
        else if s.tCur = co then some ({ s with cpu := here }, false)
        else ({ s with tCur := co }.coctxSwap .main co here).map fun s => (s, true)

/-- Execute the action in front of the place `here`. -/
def exec (s : CorThread ι α β) (here : Coctx ι α β) :
    CorAction ι α β → Option (CorThread ι α β × Bool)
  | .step _ => some ({ s with cpu := here }, true)
  | .yield => s.yield here
  | .resume co => s.resume co here
  | .setCallBack co cb =>
      let (s, ok) := s.setCallBack co cb
      some ({ s with cpu := here }, ok)

/-- One step of the thread: `CoFunction` up to the callback, an action, or `CoFunction`
behind the callback. -/
def step (script : β → List (CorAction ι α β)) (s : CorThread ι α β) :
    Option (CorThread ι α β × CorEvent ι α β) :=
  let co := s.cpu.co
  match s.cpu.place with
  | .start =>
      (s.cors co).callBack.map fun cb =>
        ({ s.set co { s.cors co with isInCoFunc := true } with
          cpu := ⟨co, .running (script cb)⟩ }, .entered co cb)
  | .running (a :: rest) =>
      (s.exec ⟨co, .running rest⟩ a).map fun (s, ok) => (s, .did co a ok)
  | .running [] =>
      if co = .main then none
      else
        ((s.set co { s.cors co with isInCoFunc := false }).yield ⟨co, .returned⟩).map
          fun (s, _) => (s, .returned co)
  | .returned => none

def machine (script : β → List (CorAction ι α β)) :
    Machine (CorThread ι α β) Unit (CorEvent ι α β) := ⟨fun s _ => s.step script⟩

end CorThread

end Rocket
