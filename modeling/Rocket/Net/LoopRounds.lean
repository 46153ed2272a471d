import Rocket.Net.TaskOrder

/-!
# The rounds of the loop

A round of `EventLoop::loop` tests the stop flag, swaps the whole queue out and takes all its
tasks before it waits. So a task that is in the queue when a round begins is taken before the
loop waits the next time, if the round passes the test; and if somebody has stopped the loop,
only those tasks are taken that the round has swapped out already.
-/

namespace Rocket

open Foundation

def LoopOp.isOther {α τ : Type} : LoopOp α τ → Bool
  | .call (some _) _ | .wakeup (some _) => true
  | _ => false

def LoopPlace.hasSwapped {α : Type} : LoopPlace α → Bool
  | .draining _ | .running _ _ | .waiting | .dispatching _ => true
  | .head | .checked | .exited => false

namespace EventLoop

variable {α τ : Type} {l s s' : EventLoop α τ}

/-- What a call does to the queue of the loop. -/
structure Grows (s s' : EventLoop α τ) : Prop where
  place_eq : s'.place = s.place
  taken_eq : s'.taken = s.taken
  stopFlag : s.stopFlag = true → s'.stopFlag = true

/-- What was in the queue of `l`, in a state that comes later: it is still there in the same
order, and it has been swapped out if the loop has not begun another round since. -/
structure Since (l s : EventLoop α τ) : Prop where
  holds : ∃ q, Holds q s ∧ l.pushed <+: q.pushed
  swapped : s.place.hasSwapped = true →
    l.pushed.length ≤ s.taken.length + s.place.tempTasks.length

theorem Since.of_taken (h : Since l s) (hholds : ∃ q, Holds q s' ∧ l.pushed <+: q.pushed)
    (hplace : s'.place.hasSwapped = true → s.place.hasSwapped = true)
    (htaken : s.taken.length + s.place.tempTasks.length ≤
      s'.taken.length + s'.place.tempTasks.length) : Since l s' :=
  ⟨hholds, fun hswapped => (h.swapped (hplace hswapped)).trans htaken⟩

/-- After the loop has been stopped, the tasks that are taken are those that the round has
swapped out. -/
structure StoppedSince (l s : EventLoop α τ) : Prop where
  stopFlag : s.stopFlag = true
  place_ne : s.place ≠ .checked
  taken_eq : s.taken ++ s.place.tempTasks = l.taken ++ l.place.tempTasks

variable [DecidableEq τ] {op : LoopOp α τ} {out : Unit}

theorem grows_addTask (s : EventLoop α τ) (caller : Option τ) (callback : LoopCallback α)
    (isWakeUp : Bool) : s.Grows (s.addTask caller callback isWakeUp) := by
  cases isWakeUp <;> exact ⟨rfl, rfl, id⟩

theorem grows_call (s : EventLoop α τ) (caller : Option τ) (call : LoopCall α) :
    s.Grows (s.call caller call) := by
  cases call with
  | addTask callback isWakeUp => exact s.grows_addTask caller callback isWakeUp
  | addCoroutine cor isWakeUp => exact s.grows_addTask caller _ isWakeUp
  | addEpollEvent event | deleteEpollEvent event =>
      cases caller with
      | none => exact ⟨rfl, rfl, id⟩
      | some t => exact s.grows_addTask (some t) _ true
  | onAccept clientFd => exact s.grows_addTask caller _ false
  | stop => exact ⟨rfl, rfl, fun _ => rfl⟩

theorem Since.step (h : Since l s) (hstep : machine.step s op = some (s', out)) :
    Since l s' := by
  obtain ⟨q, hq, hpushed⟩ := h.holds
  have hholds : ∃ q, Holds q s' ∧ l.pushed <+: q.pushed := by
    obtain ⟨q', hq', hle⟩ := hq.step hstep
    exact ⟨q', hq', hpushed.trans hle⟩
  cases stepped_of_step hstep with
  | call caller call =>
      obtain ⟨hplace, htaken, -⟩ := s.grows_call caller call
      exact h.of_taken hholds (hplace ▸ id) (by rw [hplace, htaken])
  | wakeup caller => exact h.of_taken hholds id le_rfl
  | head hplace =>
      refine ⟨hholds, fun hswapped => absurd hswapped ?_⟩
      dsimp only
      split <;> exact Bool.false_ne_true
  | swap hplace =>
      refine ⟨hholds, fun _ => ?_⟩
      have hall := hq.taken_append
      rw [hplace, ← hq.pushed] at hall
      have hlen := congrArg List.length hall
      have hle := hpushed.length_le
      simp only [LoopPlace.tempTasks, List.append_nil, List.length_append] at hlen ⊢
      omega
  | wait hplace => exact h.of_taken hholds (by rw [hplace]; exact id) (by rw [hplace]; exact le_rfl)
  | take callback tempTasks hplace =>
      refine h.of_taken hholds (fun _ => by rw [hplace]; rfl) ?_
      rw [hplace]
      cases callback <;> simp [LoopPlace.tempTasks] <;> omega
  | finish task tempTasks hplace =>
      exact h.of_taken hholds (fun _ => by rw [hplace]; rfl) (by rw [hplace]; exact le_rfl)
  | dispatched hplace => exact ⟨hholds, nofun⟩
  | dispatch callback callbacks hplace =>
      exact h.of_taken hholds (fun _ => by rw [hplace]; rfl) (by rw [hplace]; exact le_rfl)
  | epollWait events hplace =>
      exact h.of_taken hholds (fun _ => by rw [hplace]; rfl) (by rw [hplace]; exact le_rfl)
  | readEmpty again tempTasks hplace hcount =>
      exact h.of_taken hholds (fun _ => by rw [hplace]; rfl) (by rw [hplace]; exact le_rfl)
  | readWakeup again tempTasks hplace hcount hwriting =>
      refine h.of_taken hholds (fun _ => by rw [hplace]; rfl) ?_
      rw [hplace]
      cases again <;> exact le_rfl

theorem StoppedSince.step (h : StoppedSince l s) (hstep : machine.step s op = some (s', out)) :
    StoppedSince l s' := by
  obtain ⟨hstop, hne, htaken⟩ := h
  cases stepped_of_step hstep with
  | call caller call =>
      obtain ⟨hplace, htaken', hstop'⟩ := s.grows_call caller call
      exact ⟨hstop' hstop, hplace ▸ hne, by rw [hplace, htaken', htaken]⟩
  | wakeup caller => exact ⟨hstop, hne, htaken⟩
  | head hplace =>
      rw [hplace] at htaken
      refine ⟨hstop, ?_, ?_⟩
      · simp [hstop]
      · simpa [hstop, LoopPlace.tempTasks] using htaken
  | swap hplace => exact absurd hplace hne
  | wait hplace =>
      rw [hplace] at htaken
      exact ⟨hstop, nofun, htaken⟩
  | take callback tempTasks hplace =>
      rw [hplace] at htaken
      refine ⟨hstop, by cases callback <;> nofun, ?_⟩
      rw [← htaken]
      cases callback <;> simp [LoopPlace.tempTasks]
  | finish task tempTasks hplace =>
      rw [hplace] at htaken
      exact ⟨hstop, nofun, htaken⟩
  | dispatched hplace | dispatch callback callbacks hplace | epollWait events hplace =>
      rw [hplace] at htaken
      exact ⟨hstop, nofun, htaken⟩
  | readEmpty again tempTasks hplace hcount =>
      rw [hplace] at htaken
      exact ⟨hstop, nofun, htaken⟩
  | readWakeup again tempTasks hplace hcount hwriting =>
      rw [hplace] at htaken
      cases again with
      | true => exact ⟨hstop, nofun, htaken⟩
      | false => exact ⟨hstop, hne, by rw [← htaken, ← hplace]; rfl⟩

/-- The loop ends only when somebody has stopped it. -/
theorem stopFlag_of_exited (h : s.place = .exited → s.stopFlag = true)
    (hstep : machine.step s op = some (s', out)) (hexited : s'.place = .exited) :
    s'.stopFlag = true := by
  cases stepped_of_step hstep with
  | call caller call =>
      obtain ⟨hplace, -, hstop⟩ := s.grows_call caller call
      exact hstop (h (hplace ▸ hexited))
  | wakeup caller => exact h hexited
  | head hplace =>
      by_cases hstop : s.stopFlag = true
      · exact hstop
      · simp [hstop] at hexited
  | take callback tempTasks hplace => cases callback <;> cases hexited
  | readWakeup again tempTasks hplace hcount hwriting =>
      cases again with
      | true => cases hexited
      | false => exact h hexited
  | swap | wait | finish | dispatched | dispatch | epollWait | readEmpty => cases hexited

theorem grows_of_isOther (hother : op.isOther = true)
    (hstep : machine.step s op = some (s', out)) : s.Grows s' := by
  cases stepped_of_step hstep with
  | call caller call => exact s.grows_call caller call
  | wakeup caller => exact ⟨rfl, rfl, id⟩
  | _ => cases hother

/-- When somebody has stopped the loop, and it is not about to swap the queue, then no task is
taken any more but those that it has swapped out before: neither one that is in the queue, nor
one that is submitted later, by whomever. -/
theorem taken_prefix_of_stop {ops : List (LoopOp α τ)} {outs : List Unit}
    (hstop : l.stopFlag = true) (hplace : l.place ≠ .checked)
    (hrun : machine.run l ops = some (s, outs)) :
    s.stopFlag = true ∧ s.taken <+: l.taken ++ l.place.tempTasks := by
  have h : StoppedSince l s := machine.run_invariant (I := StoppedSince l)
    (fun t op t' out ht hstep => ht.step hstep) ⟨hstop, hplace, rfl⟩ hrun
  exact ⟨h.stopFlag, h.taken_eq ▸ List.prefix_append _ _⟩

/-- The loop is stopped when it has swapped out the task of a client, and that of another
client is in its queue. -/
theorem taken_prefix_of_stop_client :
    ∃ l s : EventLoop ℕ Unit, ∃ outs outs',
      machine.run {} [.call (some ()) (.onAccept 7), .loop, .loop, .call (some ()) (.onAccept 8),
        .call (some ()) .stop] = some (l, outs) ∧
      l.stopFlag = true ∧ l.place ≠ .checked ∧ l.pendingTasks = [some (.addClient 8)] ∧
      machine.run l [.loop, .loop, .wakeup (some ()), .loop, .epollWait [], .loop, .loop] =
        some (s, outs') ∧
      s.place = .exited ∧ s.stopFlag = true ∧ s.taken <+: l.taken ++ l.place.tempTasks := by
  have hrun : ((machine.run ({} : EventLoop ℕ Unit) [.call (some ()) (.onAccept 7), .loop, .loop,
      .call (some ()) (.onAccept 8), .call (some ()) .stop]).bind fun p =>
      (machine.run p.1 [.loop, .loop, .wakeup (some ()), .loop, .epollWait [], .loop,
        .loop]).map fun p' =>
          (decide (p.1.stopFlag = true ∧ p.1.place ≠ .checked), p.1.pendingTasks, p'.1.place)) =
      some (true, [some (.addClient 8)], .exited) := by
    decide +kernel
  obtain ⟨⟨l, outs⟩, hrun, hrest⟩ := Option.bind_eq_some_iff.1 hrun
  obtain ⟨⟨s, outs'⟩, hrun', heq⟩ := Option.map_eq_some_iff.1 hrest
  obtain ⟨hsets, heq⟩ := Prod.mk.inj heq
  obtain ⟨hpending, hexited⟩ := Prod.mk.inj heq
  obtain ⟨hstop, hplace⟩ := of_decide_eq_true hsets
  exact ⟨l, s, outs, outs', hrun, hstop, hplace, hpending, hrun', hexited,
    taken_prefix_of_stop hstop hplace hrun'⟩

end EventLoop

end Rocket
