import Rocket.Net.Timer

/-!
# Deleting an event while callbacks run

`onTimer` copies the callbacks of all events that are due and then runs them one
after the other. A callback that deletes one of the others takes it off the
queue, but not out of the copies: its callback is run all the same. An event that
is deleted at any other moment stays silent for good.
-/

namespace Rocket

open Foundation

namespace TimerRun

variable {ε : Type} {s s' : TimerRun ε} {e : ε}

/-- The callback of `e` waits to be run by the running `onTimer`. -/
def Waits (s : TimerRun ε) (e : ε) : Prop := e ∈ s.tasks ∧ (s.timer.events e).hasTask = true

/-- In these steps, the callback of `e` is not run before `e` is added. -/
def Silent (e : ε) (steps : List (TimerOp ε × TimerOutput ε)) : Prop :=
  ∀ pre op post, steps = pre ++ (op, .fired e) :: post → ∃ out, (.addTimerEvent e, out) ∈ pre

/-- In these steps, no callback is run once its event has been deleted, until the
event is added again. -/
def DeletedSilent (steps : List (TimerOp ε × TimerOutput ε)) : Prop :=
  ∀ e pre out post, steps = pre ++ (.deleteTimerEvent e, out) :: post → Silent e post

/-- No event is deleted while its callback waits. -/
def DeletesSettled (s : TimerRun ε) : TimerOp ε → Prop
  | .deleteTimerEvent e => ¬ s.Waits e
  | _ => True

variable [DecidableEq ε]

instance (s : TimerRun ε) (e : ε) : Decidable (s.Waits e) := inferInstanceAs (Decidable (_ ∧ _))

instance (s : TimerRun ε) : ∀ op, Decidable (s.DeletesSettled op)
  | .deleteTimerEvent e => inferInstanceAs (Decidable (¬ s.Waits e))
  | .addTimerEvent _ | .onTimer | .runTask | .advance _ => isTrue trivial

section Flags

variable {t : Timer ε} {now : ℤ}

theorem flags_foldl_addRepeated (l : List ε) :
    ((l.foldl (Timer.addRepeated now) t).events e).isCanceled = (t.events e).isCanceled ∧
      ((l.foldl (Timer.addRepeated now) t).events e).hasTask = (t.events e).hasTask := by
  induction l generalizing t with
  | nil => exact ⟨rfl, rfl⟩
  | cons a l ih =>
      have hflags : ((Timer.addRepeated now t a).events e).isCanceled = (t.events e).isCanceled ∧
          ((Timer.addRepeated now t a).events e).hasTask = (t.events e).hasTask := by
        unfold Timer.addRepeated
        split
        · by_cases he : e = a
          · subst he
            simp [TimerEvent.resetArriveTime]
          · simp [he]
        · exact ⟨rfl, rfl⟩
      rw [List.foldl_cons]
      exact ⟨ih.1.trans hflags.1, ih.2.trans hflags.2⟩

theorem flags_onTimer (t : Timer ε) (now : ℤ) (e : ε) :
    (((t.onTimer now).1.events e).isCanceled = (t.events e).isCanceled ∧
      ((t.onTimer now).1.events e).hasTask = (t.events e).hasTask) := by
  rw [Timer.onTimer, Timer.events_resetArriveTime]
  exact flags_foldl_addRepeated _

end Flags

/-- An event that `onTimer` would not collect does not get to wait, and one that does
not wait is not run. -/
theorem not_waits_of_step {op : TimerOp ε} {out : TimerOutput ε} (h : ¬ s.Waits e)
    (hcollected : e ∉ s.timer.collected s.clock)
    (hstep : machine.step s op = some (s', out)) : ¬ s'.Waits e ∧ out ≠ .fired e := by
  cases op with
  | addTimerEvent a =>
      cases hstep
      exact ⟨by simpa [Waits] using h, fun heq => by cases heq⟩
  | deleteTimerEvent a =>
      cases hstep
      refine ⟨?_, fun heq => by cases heq⟩
      by_cases he : e = a
      · subst he
        simpa [Waits, Timer.deleteTimerEvent] using h
      · simpa [Waits, Timer.deleteTimerEvent, he] using h
  | onTimer =>
      obtain ⟨_, rfl, rfl⟩ := onTimer_cases hstep
      exact ⟨fun hwaits => hcollected hwaits.1, fun heq => by cases heq⟩
  | runTask =>
      obtain ⟨a, tasks, htasks, rfl, rfl⟩ := runTask_cases hstep
      refine ⟨fun hwaits => h ⟨?_, hwaits.2⟩, ?_⟩
      · rw [htasks]
        exact List.mem_cons_of_mem a hwaits.1
      · split
        · next htask =>
            rintro heq
            cases heq
            exact h ⟨htasks ▸ List.mem_cons_self, htask⟩
        · exact fun heq => by cases heq
  | advance ms =>
      cases hstep
      exact ⟨h, fun heq => by cases heq⟩

/-- `e` has been deleted and its callback does not wait: nothing is left that could
run it. -/
structure Gone (s : TimerRun ε) (e : ε) : Prop where
  isCanceled : (s.timer.events e).isCanceled = true
  not_waits : ¬ s.Waits e

/-- A canceled event is never collected, so it stays gone, and it is not run. -/
theorem Gone.step {op : TimerOp ε} {out : TimerOutput ε} (h : s.Gone e)
    (hstep : machine.step s op = some (s', out)) : s'.Gone e ∧ out ≠ .fired e := by
  have hcollected : e ∉ s.timer.collected s.clock := by
    rw [Timer.collected, List.mem_filter, h.isCanceled]
    exact fun hmem => absurd hmem.2 (by decide)
  obtain ⟨hwaits, hout⟩ := not_waits_of_step h.not_waits hcollected hstep
  refine ⟨⟨?_, hwaits⟩, hout⟩
  cases op with
  | addTimerEvent a =>
      cases hstep
      simpa using h.isCanceled
  | deleteTimerEvent a =>
      cases hstep
      by_cases he : e = a
      · subst he
        simp [Timer.deleteTimerEvent]
      · simpa [Timer.deleteTimerEvent, he] using h.isCanceled
  | onTimer =>
      obtain ⟨_, rfl, _⟩ := onTimer_cases hstep
      exact (flags_onTimer s.timer s.clock e).1.trans h.isCanceled
  | runTask =>
      obtain ⟨a, tasks, _, rfl, _⟩ := runTask_cases hstep
      exact h.isCanceled
  | advance ms =>
      cases hstep
      exact h.isCanceled

theorem Gone.not_fired {ops : List (TimerOp ε)} {outs : List (TimerOutput ε)} (h : s.Gone e)
    (hrun : machine.run s ops = some (s', outs)) : .fired e ∉ outs := by
  intro hmem
  have hrun' := Machine.run_forall (I := fun s => s.Gone e) (A := fun _ => True)
    (P := (· ≠ .fired e)) (fun _ _ _ _ hs _ hstep => hs.step hstep) (fun _ _ => trivial) h hrun
  exact hrun'.2 _ hmem rfl

/-- Adding other events again does not make `e` pending. -/
theorem not_pending_foldl_addRepeated {t : Timer ε} {now : ℤ} {l : List ε} (he : e ∉ l)
    (hp : ¬ t.Pending e) : ¬ (l.foldl (Timer.addRepeated now) t).Pending e := by
  induction l generalizing t with
  | nil => exact hp
  | cons a l ih =>
      rw [List.mem_cons, not_or] at he
      refine ih he.2 ?_
      unfold Timer.addRepeated
      split
      · rw [Timer.pending_addTimerEvent, not_or]
        exact ⟨he.1, hp⟩
      · exact hp

omit [DecidableEq ε] in
theorem not_mem_collected {t : Timer ε} {now : ℤ} (h : ¬ t.Pending e) : e ∉ t.collected now :=
  fun hmem => h (((List.takeWhile_sublist _).map _).subset (List.mem_of_mem_filter hmem))

/-- Nothing but adding an event makes it pending, if it is not. -/
theorem not_pending_of_step {op : TimerOp ε} {out : TimerOutput ε} (h : ¬ s.timer.Pending e)
    (hop : op ≠ .addTimerEvent e) (hstep : machine.step s op = some (s', out)) :
    ¬ s'.timer.Pending e := by
  cases op with
  | addTimerEvent a =>
      cases hstep
      rw [Timer.pending_addTimerEvent, not_or]
      exact ⟨fun he => hop (he ▸ rfl), h⟩
  | deleteTimerEvent a =>
      cases hstep
      rw [Timer.Pending, Timer.deleteTimerEvent, Multimap.entries_erase]
      exact fun hp => h ((List.erase_sublist.map _).subset hp)
  | onTimer =>
      obtain ⟨_, rfl, _⟩ := onTimer_cases hstep
      rw [Timer.Pending, Timer.onTimer, Timer.pendingEvents_resetArriveTime]
      exact not_pending_foldl_addRepeated (not_mem_collected h) fun hp =>
        h (((List.dropWhile_sublist _).map _).subset hp)
  | runTask =>
      obtain ⟨a, tasks, _, rfl, _⟩ := runTask_cases hstep
      exact h
  | advance ms =>
      cases hstep
      exact h

/-- `e` is neither pending nor does its callback wait. -/
structure Absent (s : TimerRun ε) (e : ε) : Prop where
  not_pending : ¬ s.timer.Pending e
  not_waits : ¬ s.Waits e

theorem Absent.not_fired {ops : List (TimerOp ε)} {outs : List (TimerOutput ε)} (h : s.Absent e)
    (hops : .addTimerEvent e ∉ ops) (hrun : machine.run s ops = some (s', outs)) :
    .fired e ∉ outs := by
  intro hmem
  have hrun' := Machine.run_forall (I := fun s => s.Absent e) (A := (· ≠ .addTimerEvent e))
    (P := (· ≠ .fired e))
    (fun _ _ _ _ hs hop hstep => by
      obtain ⟨hwaits, hout⟩ := not_waits_of_step hs.not_waits (not_mem_collected hs.not_pending)
        hstep
      exact ⟨⟨not_pending_of_step hs.not_pending hop hstep, hwaits⟩, hout⟩)
    (fun _ hop heq => hops (by rwa [heq] at hop)) h hrun
  exact hrun'.2 _ hmem rfl

theorem gone_of_delete (hwaits : ¬ s.Waits e) {out : TimerOutput ε}
    (hstep : machine.step s (.deleteTimerEvent e) = some (s', out)) : s'.Gone e := by
  cases hstep
  refine ⟨by simp [Timer.deleteTimerEvent], ?_⟩
  simpa [Waits, Timer.deleteTimerEvent] using hwaits

theorem exists_run_fired (hwaits : s.Waits e) :
    ∃ n t outs, machine.run s (List.replicate n .runTask) = some (t, outs ++ [.fired e]) := by
  obtain ⟨hmem, htask⟩ := hwaits
  induction htasks : s.tasks generalizing s with
  | nil =>
      rw [htasks] at hmem
      cases hmem
  | cons a tasks ih =>
      by_cases he : e = a
      · subst he
        exact ⟨1, { s with tasks := tasks }, [], by
          simp [Machine.run, machine, TimerRun.step, htasks, htask]⟩
      · rw [htasks, List.mem_cons, or_iff_right he] at hmem
        obtain ⟨n, t, outs, hrun⟩ := ih (s := { s with tasks := tasks }) hmem htask rfl
        have hstep : machine.step s .runTask = some ({ s with tasks := tasks },
            if (s.timer.events a).hasTask then .fired a else .done) := by
          simp only [machine, TimerRun.step, htasks]
        exact ⟨n + 1, t, _ :: outs, Machine.run_cons hstep hrun⟩

/-- An event that is deleted stays silent, whatever follows, exactly when its
callback does not wait at that moment. -/
theorem silent_iff_not_waits (s : TimerRun ε) (e : ε) :
    (∀ ops t out outs, machine.run s (.deleteTimerEvent e :: ops) = some (t, out :: outs) →
      Silent e (ops.zip outs)) ↔ ¬ s.Waits e := by
  constructor
  · intro hsilent hwaits
    have hwaits' : Waits { s with timer := s.timer.deleteTimerEvent e } e := by
      refine ⟨hwaits.1, ?_⟩
      simpa [Timer.deleteTimerEvent] using hwaits.2
    obtain ⟨n, t, outs, hrun⟩ := exists_run_fired hwaits'
    have hlen := Machine.length_run hrun
    rw [List.length_append, List.length_singleton, List.length_replicate] at hlen
    obtain rfl : n = outs.length + 1 := hlen.symm
    have hsteps : (List.replicate (outs.length + 1) (TimerOp.runTask (ε := ε))).zip
        (outs ++ [.fired e]) =
        (List.replicate outs.length TimerOp.runTask).zip outs ++ [(.runTask, .fired e)] := by
      rw [List.replicate_succ', List.zip_append (List.length_replicate ..)]
      rfl
    obtain ⟨out, hmem⟩ := hsilent _ t .done _ (Machine.run_cons rfl hrun) _ _ _ hsteps
    have hadd := (List.of_mem_zip hmem).1
    cases List.eq_of_mem_replicate hadd
  · intro hwaits ops t out outs hrun pre op post hsteps
    obtain ⟨u, out', outs', hstep, hrest, heq⟩ :=
      (machine.run_cons_eq_some_iff s _ ops t _).1 hrun
    obtain ⟨rfl, rfl⟩ := List.cons_eq_cons.1 heq
    have hmem : (op, TimerOutput.fired e) ∈ ops.zip outs := by
      rw [hsteps]
      exact List.mem_append_right _ List.mem_cons_self
    exact absurd (List.of_mem_zip hmem).2 ((gone_of_delete hwaits hstep).not_fired hrest)

/-- In every run in which no event is deleted while its callback waits, no callback is
run once its event has been deleted, until the event is added again. -/
theorem deletedSilent_of_run {ops : List (TimerOp ε)} {outs : List (TimerOutput ε)}
    (hsettled : machine.Meets DeletesSettled s ops)
    (hrun : machine.run s ops = some (s', outs)) : DeletedSilent (ops.zip outs) := by
  intro e pre out post hsteps
  obtain ⟨rfl, u, v, hu, hstep, hv⟩ := Machine.exists_of_zip_eq hrun hsteps
  have hmeets := ((Machine.meets_append hu).1 hsettled).2
  have hwaits : ¬ u.Waits e := ((Machine.meets_cons hstep).1 hmeets).1
  have hsilent := (silent_iff_not_waits u e).2 hwaits _ _ _ _
    (Machine.run_cons hstep hv)
  rwa [← List.zip_of_prod rfl rfl] at hsilent

def twoEvents (_ : Fin 2) : TimerEvent := { arriveTime := 10, interval := 10 }

/-- Deleting an event before it is due, and another one in its own callback. -/
theorem deletedSilent_of_run_settled : DeletedSilent (ε := Fin 2)
    [(.addTimerEvent 0, .done), (.addTimerEvent 1, .done), (.deleteTimerEvent 1, .done),
      (.advance 10, .done), (.onTimer, .collected [0]), (.runTask, .fired 0),
      (.deleteTimerEvent 0, .done)] := by
  have hrun : ((machine.run (new 0 twoEvents) [.addTimerEvent 0, .addTimerEvent 1,
      .deleteTimerEvent 1, .advance 10, .onTimer, .runTask, .deleteTimerEvent 0]).map Prod.snd) =
      some [.done, .done, .done, .done, .collected [0], .fired 0, .done] := by decide +kernel
  rcases Option.map_eq_some_iff.1 hrun with ⟨⟨s, outs⟩, hrun, rfl⟩
  exact deletedSilent_of_run (by decide +kernel) hrun

/-- The callback of the first event deletes the second one, whose callback is run
next. -/
theorem not_deletedSilent_sameBatch :
    (machine.run (new 0 twoEvents) [.addTimerEvent 0, .addTimerEvent 1, .advance 10, .onTimer,
        .runTask, .deleteTimerEvent 1, .runTask]).map Prod.snd =
      some [.done, .done, .done, .collected [0, 1], .fired 0, .done, .fired 1] ∧
    ¬ DeletedSilent (ε := Fin 2)
      [(.addTimerEvent 0, .done), (.addTimerEvent 1, .done), (.advance 10, .done),
        (.onTimer, .collected [0, 1]), (.runTask, .fired 0), (.deleteTimerEvent 1, .done),
        (.runTask, .fired 1)] := by
  refine ⟨by decide +kernel, fun h => ?_⟩
  obtain ⟨out, hmem⟩ := h 1 [(.addTimerEvent 0, .done), (.addTimerEvent 1, .done),
    (.advance 10, .done), (.onTimer, .collected [0, 1]), (.runTask, .fired 0)] .done
    [(.runTask, .fired 1)] rfl [] .runTask [] rfl
  cases hmem

end TimerRun

end Rocket
