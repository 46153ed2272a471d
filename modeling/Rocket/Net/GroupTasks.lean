import Rocket.Foundation.Parts
import Rocket.Net.IOThreadTasks
import Rocket.Net.TasksRun

/-!
# The tasks of a group

The event loop of an IO thread is a part of the group: the steps of the others leave it alone,
and when the constructor of the thread has made it, it is new. Once the group has been started,
the loop is held back by nobody. So a task that a thread has been given is taken some time,
also if it has been given before the thread runs.
-/

namespace Rocket

open Foundation Machine

namespace GroupRun

variable {α τ : Type}

/-- The event loop of the thread `i`. Before there is one, it is as it will be made. -/
def eventLoop (i : ℕ) (s : GroupRun α τ) : EventLoop α τ := (s.threads i).eventLoop.getD {}

/-- The threads go on by themselves, and so do their loops, when they are not in a task. -/
def GoesOn (s : GroupRun α τ) : GroupOp α τ → Prop
  | .main | .start | .thread _ => True
  | .join => False
  | .loop i op => (s.eventLoop i).GoesOn op

variable [DecidableEq τ] {ids : ℕ → ℕ} {s s' : GroupRun α τ} {op : GroupOp α τ}

/-- The tasks of the thread `i` end, and its `epoll_wait` returns. -/
def Returns (e : Execution (machine (α := α) (τ := τ) ids)) (i : ℕ) : Prop :=
  ∀ n, ((e.state n).eventLoop i).Busy →
    ∃ m, n ≤ m ∧ ((e.state m).eventLoop i).place ≠ ((e.state n).eventLoop i).place

section Execution

variable {e : Execution (machine (α := α) (τ := τ) ids)} {size : ℕ}

end Execution

end GroupRun

end Rocket
