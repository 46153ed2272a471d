import Mathlib.Data.List.Basic

/-!
# Queues

A first-in first-out queue together with its history: what has been pushed,
what has been popped, and what is inside. The history is part of the value and
carries its own law, `popped ++ contents = pushed`, so a queue that loses,
repeats or reorders an element cannot be built.
-/

namespace Foundation

/-- A queue with its history. -/
structure Queue (α : Type*) where
  pushed : List α
  popped : List α
  contents : List α
  conserve : popped ++ contents = pushed

namespace Queue

variable {α : Type*}

def empty : Queue α := ⟨[], [], [], rfl⟩

def push (q : Queue α) (xs : List α) : Queue α :=
  ⟨q.pushed ++ xs, q.popped, q.contents ++ xs, by rw [← q.conserve, List.append_assoc]⟩

/-- Take up to `n` elements off the front. -/
def pop (q : Queue α) (n : ℕ) : Queue α :=
  ⟨q.pushed, q.popped ++ q.contents.take n, q.contents.drop n, by
    rw [List.append_assoc, List.take_append_drop, q.conserve]⟩

@[simp] theorem pushed_push (q : Queue α) (xs : List α) :
    (q.push xs).pushed = q.pushed ++ xs := rfl

@[simp] theorem pushed_pop (q : Queue α) (n : ℕ) : (q.pop n).pushed = q.pushed := rfl

@[simp] theorem contents_pop (q : Queue α) (n : ℕ) :
    (q.pop n).contents = q.contents.drop n := rfl

/-- What has been popped later is part of what had been pushed, or the whole of it is part
of what has been popped. -/
theorem popped_prefix_or_prefix {q q' : Queue α} (h : q.pushed <+: q'.pushed) :
    q'.popped <+: q.pushed ∨ q.pushed <+: q'.popped :=
  List.prefix_or_prefix_of_prefix ⟨q'.contents, q'.conserve⟩ h

end Queue

end Foundation
