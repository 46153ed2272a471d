import Rocket.Net.EventLoop

/-!
# The order of the tasks

The swapped queue and the pending one are one queue, `temp_tasks` in front: callers push
at its back, the loop takes from its front, and swapping does not change it.
-/

namespace Rocket

open Foundation

namespace EventLoop

variable {α τ : Type}

/-- `q` is the queue of the loop, with its history. -/
structure Holds (q : Queue (LoopCallback α)) (s : EventLoop α τ) : Prop where
  pushed : q.pushed = s.pushed
  popped : q.popped = s.taken
  contents : q.contents = s.place.tempTasks ++ s.pendingTasks

namespace Holds

variable {q : Queue (LoopCallback α)} {s s' : EventLoop α τ}

theorem taken_append (h : Holds q s) :
    s.taken ++ s.place.tempTasks ++ s.pendingTasks = s.pushed := by
  rw [List.append_assoc, ← h.popped, ← h.contents, q.conserve, h.pushed]

theorem push (h : Holds q s) (callback : LoopCallback α) :
    Holds (q.push [callback]) (s.push callback) := by
  refine ⟨?_, h.popped, ?_⟩
  · rw [Queue.pushed_push, h.pushed]
    rfl
  · change q.contents ++ [callback] = s.place.tempTasks ++ (s.pendingTasks ++ [callback])
    rw [h.contents, List.append_assoc]

theorem unchanged (h : Holds q s) (hpushed : s'.pushed = s.pushed) (htaken : s'.taken = s.taken)
    (hqueue : s'.place.tempTasks ++ s'.pendingTasks = s.place.tempTasks ++ s.pendingTasks) :
    ∃ q', Holds q' s' ∧ q.pushed <+: q'.pushed :=
  ⟨q, ⟨h.pushed.trans hpushed.symm, h.popped.trans htaken.symm, h.contents.trans hqueue.symm⟩,
    List.prefix_rfl⟩

variable [DecidableEq τ]

theorem addTask (h : Holds q s) (caller : Option τ) (callback : LoopCallback α)
    (isWakeUp : Bool) : Holds (q.push [callback]) (s.addTask caller callback isWakeUp) := by
  obtain ⟨hpushed, hpopped, hcontents⟩ := h.push callback
  cases isWakeUp <;> exact ⟨hpushed, hpopped, hcontents⟩

theorem call (h : Holds q s) (caller : Option τ) (call : LoopCall α) :
    ∃ q', Holds q' (s.call caller call) ∧ q.pushed <+: q'.pushed := by
  have hadd (callback : LoopCallback α) (isWakeUp : Bool) :
      ∃ q', Holds q' (s.addTask caller callback isWakeUp) ∧ q.pushed <+: q'.pushed :=
    ⟨_, h.addTask caller callback isWakeUp, List.prefix_append ..⟩
  cases call with
  | addTask callback isWakeUp => exact hadd callback isWakeUp
  | addCoroutine cor isWakeUp => exact hadd _ isWakeUp
  | addEpollEvent event =>
      cases caller with
      | none => exact h.unchanged rfl rfl rfl
      | some t => exact hadd _ true
  | deleteEpollEvent event =>
      cases caller with
      | none => exact h.unchanged rfl rfl rfl
      | some t => exact hadd _ true
  | onAccept clientFd => exact hadd _ false
  | stop => exact h.unchanged rfl rfl rfl

theorem step {op : LoopOp α τ} {out : Unit} (h : Holds q s)
    (hstep : machine.step s op = some (s', out)) :
    ∃ q', Holds q' s' ∧ q.pushed <+: q'.pushed := by
  cases stepped_of_step hstep with
  | call caller call => exact h.call caller call
  | wakeup caller => exact h.unchanged rfl rfl rfl
  | head hplace =>
      refine h.unchanged rfl rfl ?_
      rw [hplace]
      dsimp only
      split <;> rfl
  | swap hplace =>
      refine h.unchanged rfl rfl ?_
      rw [hplace]
      exact List.append_nil _
  | wait hplace => exact h.unchanged rfl rfl (by rw [hplace]; rfl)
  | take callback tempTasks hplace =>
      have hcontents : q.contents = callback :: (tempTasks ++ s.pendingTasks) := by
        rw [h.contents, hplace]
        rfl
      refine ⟨q.pop 1, ⟨h.pushed, ?_, ?_⟩, List.prefix_rfl⟩
      · change q.popped ++ q.contents.take 1 = s.taken ++ [callback]
        rw [h.popped, hcontents]
        rfl
      · rw [Queue.contents_pop, hcontents]
        cases callback <;> rfl
  | finish task tempTasks hplace => exact h.unchanged rfl rfl (by rw [hplace]; rfl)
  | dispatched hplace => exact h.unchanged rfl rfl (by rw [hplace]; rfl)
  | dispatch callback callbacks hplace =>
      obtain ⟨hpushed, hpopped, hcontents⟩ := h.push callback
      refine ⟨_, ⟨hpushed, hpopped, ?_⟩, List.prefix_append ..⟩
      rw [hcontents]
      change s.place.tempTasks ++ _ = _
      rw [hplace]
      rfl
  | epollWait events hplace => exact h.unchanged rfl rfl (by rw [hplace]; rfl)
  | readEmpty again tempTasks hplace _ => exact h.unchanged rfl rfl (by rw [hplace]; rfl)
  | readWakeup again tempTasks hplace _ _ =>
      refine h.unchanged rfl rfl ?_
      rw [hplace]
      cases again <;> rfl

theorem run {ops : List (LoopOp α τ)} {outs : List Unit} (h : Holds q s)
    (hrun : machine.run s ops = some (s', outs)) :
    ∃ q', Holds q' s' ∧ q.pushed <+: q'.pushed := by
  refine machine.run_invariant (I := fun t => ∃ q', Holds q' t ∧ q.pushed <+: q'.pushed) ?_
    ⟨q, h, List.prefix_rfl⟩ hrun
  rintro t op t' out ⟨q', hq', hprefix⟩ hstep
  obtain ⟨q'', hq'', hprefix'⟩ := hq'.step hstep
  exact ⟨q'', hq'', hprefix.trans hprefix'⟩

end Holds

/-- In every state of every run, the tasks taken so far, the rest of `temp_tasks` and
`m_pending_tasks` are the tasks pushed so far, in their order. A task that is pushed next is
taken after all of them. -/
theorem taken_in_order [DecidableEq τ] {ops : List (LoopOp α τ)} {outs : List Unit}
    {s : EventLoop α τ} (hrun : machine.run {} ops = some (s, outs)) :
    s.taken ++ s.place.tempTasks ++ s.pendingTasks = s.pushed ∧
      ∀ op out t callback ops' outs' v, machine.step s op = some (t, out) →
        t.pushed = s.pushed ++ [callback] → machine.run t ops' = some (v, outs') →
          v.taken <+: s.taken ++ s.place.tempTasks ++ s.pendingTasks ∨
            s.taken ++ s.place.tempTasks ++ s.pendingTasks ++ [callback] <+: v.taken := by
  have hstart : Holds Queue.empty ({} : EventLoop α τ) := ⟨rfl, rfl, rfl⟩
  obtain ⟨q, hq, _⟩ := hstart.run hrun
  refine ⟨hq.taken_append, ?_⟩
  intro op out t callback ops' outs' v hstep hpush hrun'
  rw [hq.taken_append]
  obtain ⟨q₁, hq₁, _⟩ := hq.step hstep
  obtain ⟨q₂, hq₂, hprefix⟩ := hq₁.run hrun'
  have hsplit := Queue.popped_prefix_or_prefix hprefix
  rw [hq₁.pushed, hq₂.popped, hpush] at hsplit
  rcases hsplit with hbefore | hafter
  · rcases List.prefix_concat_iff.1 hbefore with hall | hbefore
    · exact .inr (hall ▸ List.prefix_rfl)
    · exact .inl hbefore
  · exact .inr hafter

/-- The task 1 submits the task 3 when the task 2 is still in `temp_tasks`. -/
theorem taken_in_order_resubmitted : ∃ s : EventLoop ℕ ℕ,
    s.taken = [some (.handler 1)] ∧ s.place.tempTasks = [some (.handler 2)] ∧
      s.pendingTasks = [some (.handler 3)] ∧
      s.taken ++ s.place.tempTasks ++ s.pendingTasks = s.pushed := by
  have hrun : ((machine (α := ℕ) (τ := ℕ)).run {} [
      .call (some 0) (.addTask (some (.handler 1)) true),
      .call (some 1) (.addTask (some (.handler 2)) true), .loop, .loop, .loop,
      .call none (.addTask (some (.handler 3)) false)]).map
        (fun r => (r.1.taken, r.1.place.tempTasks, r.1.pendingTasks)) =
      some ([some (.handler 1)], [some (.handler 2)], [some (.handler 3)]) := by decide +kernel
  rcases Option.map_eq_some_iff.1 hrun with ⟨⟨s, outs⟩, hrun, heq⟩
  obtain ⟨htaken, heq⟩ := Prod.mk.inj heq
  obtain ⟨htemp, hpending⟩ := Prod.mk.inj heq
  exact ⟨s, htaken, htemp, hpending, (taken_in_order hrun).1⟩

end EventLoop

end Rocket
