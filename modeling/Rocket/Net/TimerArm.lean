import Mathlib.Order.Lattice
import Rocket.Net.TimerQueue

/-!
# The arming of the timerfd

The timerfd is set again only when the first event of the queue gets an earlier
one in front of it, and at the end of `onTimer`. Between two settings the queue
can only lose events or get later ones, so the expiry stays early enough. An
overdue first event makes the timerfd expire after 100 ms, so it is never set to
the value zero, which would disarm it.
-/

namespace Rocket

open Foundation

/-- A value that arms a timerfd. -/
structure Timespec.Arms (ts : Timespec) : Prop where
  ne_zero : ts ≠ ⟨0, 0⟩
  tvSec_nonneg : 0 ≤ ts.tvSec
  tvNsec_nonneg : 0 ≤ ts.tvNsec
  tvNsec_lt : ts.tvNsec < 1000000000

theorem Timespec.ofInterval_spec {interval : ℤ} (h : 0 < interval) :
    (Timespec.ofInterval interval).Arms ∧ (Timespec.ofInterval interval).toMs = interval := by
  have hsec : interval.tdiv 1000 = interval / 1000 := Int.tdiv_eq_ediv_of_nonneg h.le
  have hnsec : interval.tmod 1000 = interval % 1000 := Int.tmod_eq_emod_of_nonneg h.le
  refine ⟨⟨fun hzero => ?_, ?_, ?_, ?_⟩, ?_⟩
  · simp only [Timespec.ofInterval, hsec, hnsec, Timespec.mk.injEq] at hzero
    omega
  all_goals
    simp only [Timespec.ofInterval, Timespec.toMs, hsec, hnsec]
    omega

namespace Timer

variable {ε : Type} {t : Timer ε} {now : ℤ} {e : ε}

theorem firstInterval_pos (arriveTime now : ℤ) : 0 < firstInterval arriveTime now := by
  unfold firstInterval
  split <;> omega

/-- Every setting of the timerfd has armed it. -/
structure WellSet (t : Timer ε) : Prop where
  arms : ∀ c ∈ t.fd.settimes, c.2.Arms
  exists_last : ∀ x ∈ t.fd.expiry, ∃ c, t.fd.settimes.head? = some c

/-- The timerfd is armed early enough for all pending events, or has expired: it
expires no later than the first of them arrives, or 100 ms after it was set. -/
structure Armed (t : Timer ε) : Prop where
  arms : ∀ c ∈ t.fd.settimes, c.2.Arms
  unread_or_armed : t.pendingEvents.entries ≠ [] → t.fd.unread = true ∨ t.fd.expiry.isSome
  expiry_le : ∀ x ∈ t.fd.expiry, ∃ c, t.fd.settimes.head? = some c ∧
    ∀ e, t.Pending e → x ≤ max (t.events e).arriveTime (c.1 + 100)

theorem Armed.wellSet (h : t.Armed) : t.WellSet :=
  ⟨h.arms, fun x hx => (h.expiry_le x hx).imp fun _ hc => hc.1⟩

theorem armed_new (events : ε → TimerEvent) : Armed { events := events } where
  arms _ hc := absurd hc List.not_mem_nil
  unread_or_armed h := absurd rfl h
  expiry_le _ hx := nomatch hx

/-- `resetArriveTime` sets the timerfd for the first event. -/
theorem resetArriveTime_of_cons (now : ℤ) {p : ℤ × ε} {entries : List (ℤ × ε)}
    (h : t.pendingEvents.entries = p :: entries) : (t.resetArriveTime now).fd =
      { expiry := some (now + firstInterval (t.events p.2).arriveTime now)
        unread := false
        settimes := (now, .ofInterval (firstInterval (t.events p.2).arriveTime now)) ::
          t.fd.settimes } := by
  obtain ⟨harms, hms⟩ := Timespec.ofInterval_spec (firstInterval_pos (t.events p.2).arriveTime now)
  simp only [Timer.resetArriveTime, h, TimerFd.settime, if_neg harms.ne_zero, hms]

theorem resetArriveTime_of_nil (h : t.pendingEvents.entries = []) : t.resetArriveTime now = t := by
  simp only [Timer.resetArriveTime, h]

theorem WellSet.resetArriveTime (h : t.WellSet) : (t.resetArriveTime now).WellSet := by
  cases hentries : t.pendingEvents.entries with
  | nil =>
      rw [resetArriveTime_of_nil hentries]
      exact h
  | cons p entries =>
      have hfd := resetArriveTime_of_cons now hentries
      refine ⟨fun c hc => ?_, fun x _ => ⟨_, by rw [hfd]; rfl⟩⟩
      rw [hfd] at hc
      rcases List.mem_cons.1 hc with rfl | hc
      · exact (Timespec.ofInterval_spec (firstInterval_pos _ now)).1
      · exact h.arms c hc

theorem WellSet.addTimerEvent (h : t.WellSet) : (t.addTimerEvent now e).WellSet := by
  unfold Timer.addTimerEvent
  dsimp only
  split
  · exact WellSet.resetArriveTime ⟨h.arms, h.exists_last⟩
  · exact ⟨h.arms, h.exists_last⟩

variable [DecidableEq ε]

theorem WellSet.foldl_addRepeated {l : List ε} (h : t.WellSet) :
    (l.foldl (addRepeated now) t).WellSet := by
  induction l generalizing t with
  | nil => exact h
  | cons a l ih =>
      refine ih ?_
      unfold addRepeated
      split
      · exact WellSet.addTimerEvent ⟨h.arms, h.exists_last⟩
      · exact h

theorem Ordered.first_le (h : t.Ordered) {p : ℤ × ε} {entries : List (ℤ × ε)}
    (hentries : t.pendingEvents.entries = p :: entries) (he : t.Pending e) :
    (t.events p.2).arriveTime ≤ (t.events e).arriveTime := by
  have hsorted := t.pendingEvents.sorted
  have hmem := (mem_pending_iff h).1 he
  rw [← h.key_eq p (hentries ▸ List.mem_cons_self)]
  rw [hentries] at hsorted hmem
  rcases List.mem_cons.1 hmem with rfl | hmem
  · exact le_rfl
  · exact (List.pairwise_cons.1 hsorted).1 _ hmem

theorem WellSet.armed_resetArriveTime (h : t.WellSet) (hord : t.Ordered) :
    (t.resetArriveTime now).Armed := by
  have hset : (t.resetArriveTime now).WellSet := h.resetArriveTime
  cases hentries : t.pendingEvents.entries with
  | nil =>
      rw [resetArriveTime_of_nil hentries] at hset ⊢
      refine ⟨h.arms, fun hne => absurd hentries hne, fun x hx => ?_⟩
      obtain ⟨c, hc⟩ := h.exists_last x hx
      refine ⟨c, hc, fun e he => ?_⟩
      rw [Pending, hentries] at he
      exact absurd he List.not_mem_nil
  | cons p entries =>
      have hfd := resetArriveTime_of_cons now hentries
      refine ⟨hset.arms, fun _ => Or.inr (by rw [hfd]; rfl), fun x hx => ?_⟩
      refine ⟨_, by rw [hfd]; rfl, fun e he => ?_⟩
      rw [hfd] at hx
      cases hx
      rw [Pending, pendingEvents_resetArriveTime] at he
      have hle := hord.first_le hentries he
      rw [events_resetArriveTime, firstInterval]
      split
      · dsimp only
        omega
      · exact le_max_right _ _

/-- An event that does not come first needs no new setting. -/
theorem Armed.addTimerEvent (h : t.Armed) (hord : t.Ordered) (hnew : ¬ t.Pending e) :
    (t.addTimerEvent now e).Armed := by
  have hadd : (t.addTimerEvent now e).Ordered := hord.addTimerEvent hnew
  cases hreset : t.isResetTimerfd e with
  | true =>
      simp only [Timer.addTimerEvent, hreset, if_true] at hadd ⊢
      refine WellSet.armed_resetArriveTime ⟨h.arms, h.wellSet.exists_last⟩ ⟨?_, ?_⟩
      · simpa using hadd.key_eq
      · simpa [Precedes, InsertedBefore] using hadd.precedes
  | false =>
      cases hentries : t.pendingEvents.entries with
      | nil => simp [isResetTimerfd, hentries] at hreset
      | cons p entries =>
          simp only [isResetTimerfd, hentries, decide_eq_false_iff_not, not_lt] at hreset
          have hne : t.pendingEvents.entries ≠ [] := by simp [hentries]
          have hfirst : t.Pending p.2 := List.mem_map_of_mem (hentries ▸ List.mem_cons_self)
          have heq : t.addTimerEvent now e = { t with
              pendingEvents := t.pendingEvents.emplace (t.events e).arriveTime e
              inserted := e :: t.inserted } := by
            simp [Timer.addTimerEvent, isResetTimerfd, hentries, hreset]
          refine ⟨by rw [heq]; exact h.arms, fun _ => by rw [heq]; exact h.unread_or_armed hne,
            fun x hx => ?_⟩
          rw [heq] at hx ⊢
          obtain ⟨c, hc, hle⟩ := h.expiry_le x hx
          refine ⟨c, hc, fun e' he' => ?_⟩
          rcases pending_addTimerEvent.1 (heq ▸ he') with rfl | he'
          · exact (hle p.2 hfirst).trans (sup_le_sup_right hreset _)
          · exact hle e' he'

theorem Armed.deleteTimerEvent (h : t.Armed) (hord : t.Ordered) : (t.deleteTimerEvent e).Armed := by
  have hentries := hord.entries_deleteTimerEvent e
  refine ⟨h.arms, fun hne => h.unread_or_armed fun hnil => hne ?_, fun x hx => ?_⟩
  · rw [hentries, hnil, List.filter_nil]
  · obtain ⟨c, hc, hle⟩ := h.expiry_le x hx
    refine ⟨c, hc, fun e' he' => ?_⟩
    rw [arriveTime_deleteTimerEvent]
    refine hle e' ?_
    rw [Pending, hentries] at he'
    exact (List.filter_sublist.map _).subset he'

theorem Armed.onTimer (h : t.Armed) (hord : t.Ordered) : (t.onTimer now).1.Armed := by
  obtain ⟨herase, hpend⟩ := hord.pending_eraseUpTo now t.fd.read
  have hset : WellSet { t with
      fd := t.fd.read, pendingEvents := t.pendingEvents.eraseUpTo now } :=
    ⟨h.arms, h.wellSet.exists_last⟩
  have hnew : ∀ e ∈ t.collected now,
      ¬ Pending { t with fd := t.fd.read, pendingEvents := t.pendingEvents.eraseUpTo now } e :=
    fun e he hp => absurd (hord.mem_collected.1 he).2.2 (not_le_of_gt ((hpend e).1 hp).2)
  exact hset.foldl_addRepeated.armed_resetArriveTime
    (herase.foldl_addRepeated now hord.collected_nodup hnew).1

end Timer

namespace TimerRun

variable {ε : Type} [DecidableEq ε]

theorem armed_of_step {s s' : TimerRun ε} {op : TimerOp ε} {out : TimerOutput ε}
    (h : s.timer.Armed) (hord : s.timer.Ordered) (hfresh : s.AddsFresh op)
    (hstep : machine.step s op = some (s', out)) : s'.timer.Armed := by
  cases op with
  | addTimerEvent e =>
      cases hstep
      exact h.addTimerEvent hord hfresh
  | deleteTimerEvent e =>
      cases hstep
      exact h.deleteTimerEvent hord
  | onTimer =>
      obtain ⟨_, rfl, _⟩ := onTimer_cases hstep
      exact h.onTimer hord
  | runTask =>
      obtain ⟨e, tasks, _, rfl, _⟩ := runTask_cases hstep
      exact h
  | advance ms =>
      cases hstep
      by_cases hexpired : ∃ x ∈ s.timer.fd.expiry, x ≤ s.clock + ms
      · have hfd : s.timer.fd.expire (s.clock + ms) =
            { s.timer.fd with expiry := none, unread := true } := if_pos hexpired
        refine ⟨?_, fun _ => Or.inl ?_, fun x hx => ?_⟩
        · simpa [hfd] using h.arms
        · simp [hfd]
        · simp [hfd] at hx
      · have hfd : s.timer.fd.expire (s.clock + ms) = s.timer.fd := if_neg hexpired
        simp only [hfd]
        exact ⟨h.arms, h.unread_or_armed, h.expiry_le⟩

/-- In every run from a timer without events, the timerfd is armed early enough for
all pending events or has expired, and no setting has disarmed it. -/
theorem armed_of_run {clock : ℤ} {events : ε → TimerEvent} {ops : List (TimerOp ε)}
    {outs : List (TimerOutput ε)} {s : TimerRun ε}
    (hfresh : machine.Meets AddsFresh (new clock events) ops)
    (hrun : machine.run (new clock events) ops = some (s, outs)) : s.timer.Armed :=
  (hfresh.run_invariant (I := fun s : TimerRun ε => s.timer.Ordered ∧ s.timer.Armed)
    (fun _ _ _ _ h hok hstep => ⟨ordered_of_step h.1 hok hstep, armed_of_step h.2 h.1 hok hstep⟩)
    ⟨Timer.ordered_new events, Timer.armed_new events⟩ hrun).2

/-- The repeated event without interval is overdue when `onTimer` has collected it. -/
theorem armed_of_run_three : ∃ s : TimerRun (Fin 3), s.timer.Armed ∧
    s.timer.fd.expiry = some 110 ∧ s.timer.Pending 2 := by
  have hrun : (machine.run (new 0 threeEvents)
      [.addTimerEvent 2, .addTimerEvent 1, .advance 10, .onTimer]).map
      (fun p => (p.1.timer.fd.expiry, p.1.timer.pendingEvents.entries)) =
      some (some 110, [(10, 2)]) := by decide +kernel
  rcases Option.map_eq_some_iff.1 hrun with ⟨⟨s, outs⟩, hrun, heq⟩
  simp only [Prod.mk.injEq] at heq
  refine ⟨s, armed_of_run (by decide +kernel) hrun, heq.1, ?_⟩
  rw [Timer.Pending, heq.2]
  decide

end TimerRun

end Rocket
