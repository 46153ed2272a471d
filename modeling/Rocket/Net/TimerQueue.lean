import Mathlib.Data.List.Nodup
import Rocket.Net.Timer

/-!
# The order of the timer queue

`deleteTimerEvent` looks for an event by its arrive time, and `onTimer` takes the
events off the front of the queue. Both rest on `Ordered`: every entry stands
under the arrive time of its event, and the entries are ordered by arrive time
and, among equals, by insertion. All operations keep this as long as no event is
added while it is pending.
-/

namespace Rocket

open Foundation

namespace Timer

variable {ε : Type} [DecidableEq ε] {t : Timer ε} {now : ℤ} {e e' : ε}

/-- `e` has been inserted before `e'`. -/
def InsertedBefore (t : Timer ε) (e e' : ε) : Prop := t.inserted.idxOf e' < t.inserted.idxOf e

/-- `e` arrives before `e'`, or at the same time and has been inserted first. -/
def Precedes (t : Timer ε) (e e' : ε) : Prop :=
  (t.events e).arriveTime < (t.events e').arriveTime ∨
    (t.events e).arriveTime = (t.events e').arriveTime ∧ t.InsertedBefore e e'

structure Ordered (t : Timer ε) : Prop where
  key_eq : ∀ p ∈ t.pendingEvents.entries, p.1 = (t.events p.2).arriveTime
  precedes : t.pendingEvents.entries.Pairwise fun a b => t.Precedes a.2 b.2

/-- Only the arming differs before and after `resetArriveTime`. -/
theorem Ordered.resetArriveTime (h : t.Ordered) : (t.resetArriveTime now).Ordered := by
  refine ⟨?_, ?_⟩
  · simpa using h.key_eq
  · simpa [Precedes, InsertedBefore] using h.precedes

theorem mem_pending_iff (h : t.Ordered) :
    t.Pending e ↔ ((t.events e).arriveTime, e) ∈ t.pendingEvents.entries := by
  constructor
  · intro hp
    rcases List.mem_map.1 hp with ⟨⟨k, e'⟩, hmem, rfl⟩
    have hk := h.key_eq _ hmem
    exact hk ▸ hmem
  · intro hmem
    exact List.mem_map_of_mem (f := Prod.snd) hmem

theorem ordered_new (events : ε → TimerEvent) : Ordered { events := events } where
  key_eq _ hp := absurd hp List.not_mem_nil
  precedes := List.Pairwise.nil

theorem Ordered.nodup (h : t.Ordered) : (t.pendingEvents.entries.map Prod.snd).Nodup := by
  rw [List.Nodup, List.pairwise_map]
  refine h.precedes.imp fun {a b} hab heq => ?_
  rcases hab with hlt | ⟨_, hbefore⟩
  · rw [heq] at hlt
    exact lt_irrefl _ hlt
  · rw [heq] at hbefore
    exact lt_irrefl _ hbefore

theorem Ordered.entries_nodup (h : t.Ordered) : t.pendingEvents.entries.Nodup :=
  List.Nodup.of_map Prod.snd h.nodup

theorem Ordered.eq_entry_iff (h : t.Ordered) {p : ℤ × ε} (hp : p ∈ t.pendingEvents.entries) :
    p = ((t.events e).arriveTime, e) ↔ p.2 = e := by
  constructor
  · rintro rfl
    rfl
  · rintro rfl
    exact Prod.ext (h.key_eq p hp) rfl

theorem Ordered.filter_eq (h : t.Ordered) (hp : t.Pending e) :
    t.pendingEvents.entries.filter (·.2 = e) = [((t.events e).arriveTime, e)] := by
  have hmem := (mem_pending_iff h).1 hp
  have hfilter : t.pendingEvents.entries.filter (·.2 = e) =
      t.pendingEvents.entries.filter (· = ((t.events e).arriveTime, e)) :=
    List.filter_congr fun p hpmem => decide_eq_decide.2 (h.eq_entry_iff hpmem).symm
  rw [hfilter, List.filter_eq, List.count_eq_one_of_mem h.entries_nodup hmem, List.replicate_one]

section Add

theorem Ordered.addTimerEvent (h : t.Ordered) (hnew : ¬ t.Pending e) :
    (t.addTimerEvent now e).Ordered := by
  have hne : ∀ p ∈ t.pendingEvents.entries, e ≠ p.2 := by
    rintro p hp rfl
    exact hnew (List.mem_map_of_mem hp)
  -- among the old entries, the history has only become longer
  have hold : t.pendingEvents.entries.Pairwise
      fun a b => (t.addTimerEvent now e).Precedes a.2 b.2 := by
    refine h.precedes.imp_of_mem fun {a b} ha hb hab => ?_
    simpa [Precedes, InsertedBefore, List.idxOf_cons_ne, hne a ha, hne b hb] using hab
  rw [← t.pendingEvents.upTo_append_above (t.events e).arriveTime, List.pairwise_append] at hold
  obtain ⟨hupTo, habove, hcross⟩ := hold
  refine ⟨?_, ?_⟩
  · intro p hp
    rw [pendingEvents_addTimerEvent, Multimap.mem_emplace] at hp
    rcases hp with rfl | hp
    · simp
    · simpa using h.key_eq p hp
  · rw [pendingEvents_addTimerEvent, Multimap.entries_emplace, List.pairwise_append,
      List.pairwise_cons]
    refine ⟨hupTo, ⟨?_, habove⟩, ?_⟩
    · intro b hb
      obtain ⟨hmem, hlt⟩ := (Multimap.mem_above _ _).1 hb
      rw [h.key_eq b hmem] at hlt
      exact Or.inl (by simpa using hlt)
    · intro a ha b hb
      rcases List.mem_cons.1 hb with rfl | hb
      · obtain ⟨hmem, hle⟩ := (Multimap.mem_upTo _ _).1 ha
        rw [h.key_eq a hmem] at hle
        rcases hle.lt_or_eq with hlt | heq
        · exact Or.inl (by simpa using hlt)
        · refine Or.inr ⟨by simpa using heq, ?_⟩
          simp [InsertedBefore, List.idxOf_cons_ne, hne a hmem]
      · exact hcross a ha b hb

end Add

section Delete

theorem Ordered.entries_deleteTimerEvent (h : t.Ordered) (e : ε) :
    (t.deleteTimerEvent e).pendingEvents.entries =
      t.pendingEvents.entries.filter (·.2 ≠ e) := by
  rw [Timer.deleteTimerEvent, Multimap.entries_erase, h.entries_nodup.erase_eq_filter]
  refine List.filter_congr fun p hp => ?_
  rw [Bool.eq_iff_iff, bne_iff_ne, decide_eq_true_iff, ne_eq, h.eq_entry_iff hp]

theorem Ordered.deleteTimerEvent (h : t.Ordered) (e : ε) : (t.deleteTimerEvent e).Ordered := by
  have hentries := h.entries_deleteTimerEvent e
  refine ⟨?_, ?_⟩
  · intro p hp
    rw [hentries] at hp
    rw [arriveTime_deleteTimerEvent]
    exact h.key_eq p (List.mem_of_mem_filter hp)
  · rw [hentries]
    simpa [Precedes, InsertedBefore] using h.precedes.filter _

end Delete

section OnTimer

/-- The events are collected by their arrive times, not by the order of their
entries. -/
theorem Ordered.mem_collected (h : t.Ordered) : e ∈ t.collected now ↔
    t.Pending e ∧ (t.events e).isCanceled = false ∧ (t.events e).arriveTime ≤ now := by
  have hdue : e ∈ (t.pendingEvents.upTo now).map Prod.snd ↔
      t.Pending e ∧ (t.events e).arriveTime ≤ now := by
    rw [mem_pending_iff h, List.mem_map]
    constructor
    · rintro ⟨p, hp, rfl⟩
      obtain ⟨hmem, hle⟩ := (Multimap.mem_upTo _ _).1 hp
      have hkey := h.key_eq p hmem
      exact ⟨hkey ▸ hmem, hkey ▸ hle⟩
    · rintro ⟨hmem, hle⟩
      exact ⟨_, (Multimap.mem_upTo _ _).2 ⟨hmem, hle⟩, rfl⟩
  rw [collected, List.mem_filter, hdue, Bool.not_eq_true', and_assoc, and_comm (a := _ ≤ _)]

theorem Ordered.collected_precedes (h : t.Ordered) : (t.collected now).Pairwise t.Precedes := by
  have hpre : (t.pendingEvents.upTo now).Pairwise fun a b => t.Precedes a.2 b.2 :=
    h.precedes.sublist (List.takeWhile_sublist _)
  exact (List.pairwise_map.2 hpre).filter _

theorem Ordered.collected_nodup (h : t.Ordered) : (t.collected now).Nodup :=
  (h.nodup.sublist ((List.takeWhile_sublist _).map _)).filter _

theorem Ordered.addRepeated (h : t.Ordered) (now : ℤ) (hnew : ¬ t.Pending e) :
    (addRepeated now t e).Ordered ∧
      (∀ e', (addRepeated now t e).Pending e' ↔
        t.Pending e' ∨ e' = e ∧ (t.events e).isRepeated = true) ∧
      ∀ e', (addRepeated now t e).events e' =
        if e' = e ∧ (t.events e).isRepeated = true then (t.events e').resetArriveTime now
        else t.events e' := by
  unfold Timer.addRepeated
  split
  · rename_i hrep
    have hne : ∀ p ∈ t.pendingEvents.entries, p.2 ≠ e := by
      rintro p hp rfl
      exact hnew (List.mem_map_of_mem hp)
    have hset : Ordered { t with
        events := Function.update t.events e ((t.events e).resetArriveTime now) } := by
      refine ⟨fun p hp => ?_, h.precedes.imp_of_mem fun {a b} ha hb hab => ?_⟩
      · simpa [hne p hp] using h.key_eq p hp
      · simpa [Precedes, InsertedBefore, hne a ha, hne b hb] using hab
    refine ⟨hset.addTimerEvent hnew, fun e' => ?_, fun e' => ?_⟩
    · rw [pending_addTimerEvent, and_iff_left hrep, or_comm]
      rfl
    · by_cases he : e' = e
      · subst he
        simp [hrep]
      · simp [he]
  · rename_i hrep
    exact ⟨h, by simp [hrep], by simp [hrep]⟩

theorem Ordered.foldl_addRepeated {l : List ε} (h : t.Ordered) (now : ℤ) (hnodup : l.Nodup)
    (hnew : ∀ e ∈ l, ¬ t.Pending e) :
    (l.foldl (Timer.addRepeated now) t).Ordered ∧
      (∀ e, (l.foldl (Timer.addRepeated now) t).Pending e ↔
        t.Pending e ∨ e ∈ l ∧ (t.events e).isRepeated = true) ∧
      ∀ e, (l.foldl (Timer.addRepeated now) t).events e =
        if e ∈ l ∧ (t.events e).isRepeated = true then (t.events e).resetArriveTime now
        else t.events e := by
  induction l generalizing t with
  | nil => exact ⟨h, by simp, by simp⟩
  | cons a l ih =>
      obtain ⟨ha, hl⟩ := List.nodup_cons.1 hnodup
      obtain ⟨hord, hpend, hevents⟩ := h.addRepeated now (hnew a List.mem_cons_self)
      have hnew' : ∀ e ∈ l, ¬ (Timer.addRepeated now t a).Pending e := by
        intro e he hp
        rcases (hpend e).1 hp with hp | ⟨rfl, _⟩
        · exact hnew e (List.mem_cons_of_mem a he) hp
        · exact ha he
      have hother : ∀ e, e ≠ a → (Timer.addRepeated now t a).events e = t.events e := by
        intro e he
        rw [hevents, if_neg fun h => he h.1]
      obtain ⟨hord', hpend', hevents'⟩ := ih hord hl hnew'
      rw [List.foldl_cons]
      refine ⟨hord', fun e => ?_, fun e => ?_⟩
      · rw [hpend', hpend, List.mem_cons]
        by_cases he : e = a
        · subst he
          simp [ha]
        · simp [he, hother e he]
      · rw [hevents']
        by_cases he : e = a
        · subst he
          simp [ha, hevents]
        · simp [he, hother e he]

theorem Ordered.pending_eraseUpTo (h : t.Ordered) (now : ℤ) (fd : TimerFd) :
    Ordered { t with fd := fd, pendingEvents := t.pendingEvents.eraseUpTo now } ∧
      ∀ e, Pending { t with fd := fd, pendingEvents := t.pendingEvents.eraseUpTo now } e ↔
        t.Pending e ∧ now < (t.events e).arriveTime := by
  have hord : Ordered { t with fd := fd, pendingEvents := t.pendingEvents.eraseUpTo now } :=
    ⟨fun p hp => h.key_eq p ((Multimap.mem_above _ _).1 hp).1,
      h.precedes.sublist (List.dropWhile_sublist _)⟩
  refine ⟨hord, fun e => ?_⟩
  rw [mem_pending_iff hord, mem_pending_iff h, Multimap.entries_eraseUpTo, Multimap.mem_above]

/-- What `onTimer` leaves when it starts to run the callbacks: the events that are
not due, and the collected ones that are repeated, at their new arrive times. -/
theorem Ordered.onTimer (h : t.Ordered) (now : ℤ) : (t.onTimer now).1.Ordered ∧
    (∀ e, (t.onTimer now).1.Pending e ↔ t.Pending e ∧ now < (t.events e).arriveTime ∨
      e ∈ t.collected now ∧ (t.events e).isRepeated = true) ∧
    ∀ e, (t.onTimer now).1.events e =
      if e ∈ t.collected now ∧ (t.events e).isRepeated = true then
        (t.events e).resetArriveTime now
      else t.events e := by
  obtain ⟨herase, hpend⟩ := h.pending_eraseUpTo now t.fd.read
  have hnew : ∀ e ∈ t.collected now,
      ¬ Pending { t with fd := t.fd.read, pendingEvents := t.pendingEvents.eraseUpTo now } e := by
    intro e he hp
    exact absurd (h.mem_collected.1 he).2.2 (not_le_of_gt ((hpend e).1 hp).2)
  obtain ⟨hord, hpend', hevents⟩ := herase.foldl_addRepeated now h.collected_nodup hnew
  refine ⟨hord.resetArriveTime, fun e => ?_, fun e => ?_⟩
  · rw [← hpend e, ← hpend' e, Timer.onTimer, Pending, pendingEvents_resetArriveTime]
    rfl
  · rw [Timer.onTimer, events_resetArriveTime]
    exact hevents e

end OnTimer

/-- What the timer does with its queue when `onTimer` is called at the time `now`,
or an event is deleted. -/
structure Disciplined (t : Timer ε) (now : ℤ) : Prop where
  key_eq : ∀ p ∈ t.pendingEvents.entries, p.1 = (t.events p.2).arriveTime
  mem_collected : ∀ e, e ∈ (t.onTimer now).2 ↔
    t.Pending e ∧ (t.events e).isCanceled = false ∧ (t.events e).arriveTime ≤ now
  collected_precedes : (t.onTimer now).2.Pairwise t.Precedes
  stays : ∀ p ∈ t.pendingEvents.entries, now < p.1 →
    p ∈ (t.onTimer now).1.pendingEvents.entries ∧ (t.onTimer now).1.events p.2 = t.events p.2
  repeated : ∀ e ∈ (t.onTimer now).2, (t.events e).isRepeated = true →
    ((t.onTimer now).1.events e).arriveTime = now + (t.events e).interval ∧
      (t.onTimer now).1.pendingEvents.entries.filter (·.2 = e) =
        [(now + (t.events e).interval, e)]
  oneShot : ∀ e ∈ (t.onTimer now).2, (t.events e).isRepeated = false →
    ¬ (t.onTimer now).1.Pending e
  delete : ∀ e, (t.deleteTimerEvent e).pendingEvents.entries =
    t.pendingEvents.entries.filter (·.2 ≠ e)

theorem Ordered.disciplined (h : t.Ordered) (now : ℤ) : t.Disciplined now := by
  obtain ⟨hord, hpend, hevents⟩ := h.onTimer now
  refine ⟨h.key_eq, fun e => h.mem_collected, h.collected_precedes, ?_, ?_, ?_,
    h.entries_deleteTimerEvent⟩
  · intro p hp hlt
    rw [h.key_eq p hp] at hlt
    have hpending : t.Pending p.2 := List.mem_map_of_mem hp
    have hnot : p.2 ∉ t.collected now :=
      fun hmem => absurd (h.mem_collected.1 hmem).2.2 (not_le_of_gt hlt)
    have heq : (t.onTimer now).1.events p.2 = t.events p.2 := by
      rw [hevents, if_neg fun hc => hnot hc.1]
    have hmem := (mem_pending_iff hord).1 ((hpend p.2).2 (Or.inl ⟨hpending, hlt⟩))
    rw [heq, ← h.key_eq p hp] at hmem
    exact ⟨hmem, heq⟩
  · intro e he hrep
    have heq : ((t.onTimer now).1.events e).arriveTime = now + (t.events e).interval := by
      rw [hevents, if_pos ⟨he, hrep⟩, TimerEvent.resetArriveTime]
    exact ⟨heq, heq ▸ hord.filter_eq ((hpend e).2 (Or.inr ⟨he, hrep⟩))⟩
  · intro e he hrep hp
    rcases (hpend e).1 hp with ⟨_, hlt⟩ | ⟨_, hrep'⟩
    · exact absurd (h.mem_collected.1 he).2.2 (not_le_of_gt hlt)
    · rw [hrep] at hrep'
      cases hrep'

end Timer

namespace TimerRun

variable {ε : Type} [DecidableEq ε]

/-- The queue stays ordered when events are added only while they are not pending. -/
theorem ordered_of_step {s s' : TimerRun ε} {op : TimerOp ε} {out : TimerOutput ε}
    (h : s.timer.Ordered) (hfresh : s.AddsFresh op) (hstep : machine.step s op = some (s', out)) :
    s'.timer.Ordered := by
  cases op with
  | addTimerEvent e =>
      cases hstep
      exact h.addTimerEvent hfresh
  | deleteTimerEvent e =>
      cases hstep
      exact h.deleteTimerEvent e
  | onTimer =>
      obtain ⟨_, rfl, _⟩ := onTimer_cases hstep
      exact (h.onTimer s.clock).1
  | runTask =>
      obtain ⟨e, tasks, _, rfl, _⟩ := runTask_cases hstep
      exact h
  | advance ms =>
      cases hstep
      exact ⟨h.key_eq, h.precedes⟩

/-- In every run from a timer without events, `onTimer` collects exactly the events
that are due, in the order of their arrive times and, among equals, of their
insertion; the others stay, and an event that is deleted is the only one that goes. -/
theorem disciplined_of_run {clock : ℤ} {events : ε → TimerEvent} {ops : List (TimerOp ε)}
    {outs : List (TimerOutput ε)} {s : TimerRun ε}
    (hfresh : machine.Meets AddsFresh (new clock events) ops)
    (hrun : machine.run (new clock events) ops = some (s, outs)) :
    s.timer.Disciplined s.clock :=
  (hfresh.run_invariant (I := fun s : TimerRun ε => s.timer.Ordered)
    (fun _ _ _ _ h hok hstep => ordered_of_step h hok hstep)
    (Timer.ordered_new events) hrun).disciplined s.clock

def threeEvents (e : Fin 3) : TimerEvent where
  arriveTime := 10
  interval := 0
  isRepeated := e = 2

/-- The three events are due, and the second one has been deleted. -/
theorem disciplined_of_run_three :
    ∃ s : TimerRun (Fin 3), s.timer.Disciplined s.clock ∧ s.timer.collected s.clock = [2, 0] := by
  have hrun : (machine.run (new 0 threeEvents) [.addTimerEvent 2, .addTimerEvent 1,
      .addTimerEvent 0, .deleteTimerEvent 1, .advance 10]).isSome := by decide +kernel
  rcases Option.isSome_iff_exists.1 hrun with ⟨⟨s, outs⟩, hrun⟩
  refine ⟨s, disciplined_of_run (by decide +kernel) hrun, ?_⟩
  have hcollected : (machine.run (new 0 threeEvents) [.addTimerEvent 2, .addTimerEvent 1,
      .addTimerEvent 0, .deleteTimerEvent 1, .advance 10]).map
      (fun p => p.1.timer.collected p.1.clock) = some [2, 0] := by decide +kernel
  rw [hrun] at hcollected
  exact Option.some.inj hcollected

end TimerRun

end Rocket
