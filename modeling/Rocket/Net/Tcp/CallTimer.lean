import Mathlib.Data.List.Count
import Rocket.Net.Tcp.TcpClient
import Rocket.Net.TimerBatch
import Rocket.Net.TimerQueue

/-!
# The timer of a client call

A call of `sendAndRecvTinyPb` keeps the events that it leaves in the timer in a
list. `Agrees` says what this list means for the timer of the loop, over any run
of the timer: an event in the list is still pending, or its callback waits in the
batch of the running `onTimer`; one that is not in the list is not pending. Each
step of a call has its steps of the timer (`agrees_startCall`, `Agrees.resume`,
`Agrees.deleteTimerEvent`), and so has a whole call (`agrees_of_suspends`).
-/

namespace Rocket

open Foundation

namespace TimerRun

variable {ε : Type} [DecidableEq ε] {s s' : TimerRun ε} {e : ε}

/-- How often the callback of `e` is going to be run: once for each entry of `e` and
once for each copy of its callback. -/
def outstanding (s : TimerRun ε) (e : ε) : ℕ :=
  (s.timer.pendingEvents.entries.map Prod.snd).count e + s.tasks.count e

/-- `e` is run once, and has not been deleted. -/
structure OneShot (s : TimerRun ε) (e : ε) : Prop where
  isRepeated : (s.timer.events e).isRepeated = false
  isCanceled : (s.timer.events e).isCanceled = false
  hasTask : (s.timer.events e).hasTask = true

end TimerRun

namespace Timer

variable {ε : Type} [DecidableEq ε] {t : Timer ε} {now : ℤ} {e : ε}

theorem count_addTimerEvent {a : ε} :
    ((t.addTimerEvent now a).pendingEvents.entries.map Prod.snd).count e =
      (t.pendingEvents.entries.map Prod.snd).count e + [a].count e := by
  have hentries := congrArg (List.map Prod.snd)
    (t.pendingEvents.upTo_append_above (t.events a).arriveTime)
  rw [pendingEvents_addTimerEvent, Multimap.entries_emplace, ← hentries]
  simp only [List.map_append, List.map_cons, List.count_append, List.count_cons, List.count_nil]
  omega

/-- Adding other events again keeps the one-shot event `e` and its entries. -/
theorem foldl_addRepeated_of_oneShot {l : List ε} (he : (t.events e).isRepeated = false) :
    (l.foldl (addRepeated now) t).events e = t.events e ∧
      ((l.foldl (addRepeated now) t).pendingEvents.entries.map Prod.snd).count e =
        (t.pendingEvents.entries.map Prod.snd).count e := by
  induction l generalizing t with
  | nil => exact ⟨rfl, rfl⟩
  | cons a l ih =>
      have hkeep : (addRepeated now t a).events e = t.events e ∧
          ((addRepeated now t a).pendingEvents.entries.map Prod.snd).count e =
            (t.pendingEvents.entries.map Prod.snd).count e := by
        unfold addRepeated
        split
        · next hrepeated =>
            have hne : e ≠ a := by
              rintro rfl
              rw [he] at hrepeated
              cases hrepeated
            refine ⟨by simp [hne], ?_⟩
            rw [count_addTimerEvent, List.count_singleton, if_neg (by simpa using hne.symm)]
            rfl
        · exact ⟨rfl, rfl⟩
      obtain ⟨hevents, hcount⟩ := ih (t := addRepeated now t a) (hkeep.1 ▸ he)
      exact ⟨hevents.trans hkeep.1, hcount.trans hkeep.2⟩

/-- `onTimer` keeps a one-shot event, and those of its entries that are not due. -/
theorem onTimer_of_oneShot (now : ℤ) (he : (t.events e).isRepeated = false) :
    (t.onTimer now).1.events e = t.events e ∧
      ((t.onTimer now).1.pendingEvents.entries.map Prod.snd).count e =
        ((t.pendingEvents.above now).map Prod.snd).count e := by
  rw [onTimer, events_resetArriveTime, pendingEvents_resetArriveTime]
  exact foldl_addRepeated_of_oneShot he

/-- `onTimer` moves the entries of a one-shot event that are due to the batch. -/
theorem count_onTimer_of_oneShot (now : ℤ) (he : (t.events e).isRepeated = false)
    (hlive : (t.events e).isCanceled = false) :
    ((t.onTimer now).1.pendingEvents.entries.map Prod.snd).count e + (t.onTimer now).2.count e =
      (t.pendingEvents.entries.map Prod.snd).count e := by
  have hcollected : (t.onTimer now).2.count e =
      ((t.pendingEvents.upTo now).map Prod.snd).count e :=
    List.count_filter (by rw [hlive]; rfl)
  have hsplit := congrArg (fun l => (l.map Prod.snd).count e)
    (t.pendingEvents.upTo_append_above now)
  rw [List.map_append, List.count_append] at hsplit
  rw [(onTimer_of_oneShot now he).2, hcollected, add_comm]
  exact hsplit

/-- Deleting another event keeps the entries of `e`. -/
theorem count_deleteTimerEvent {a : ε} (hne : e ≠ a) :
    ((t.deleteTimerEvent a).pendingEvents.entries.map Prod.snd).count e =
      (t.pendingEvents.entries.map Prod.snd).count e := by
  simp only [deleteTimerEvent, Multimap.entries_erase, List.count_eq_countP, List.countP_map]
  rw [List.countP_erase, if_neg (by simp [hne.symm])]
  rfl

end Timer

namespace TimerRun

variable {ε : Type} [DecidableEq ε] {s s' : TimerRun ε} {e : ε}

omit [DecidableEq ε] in
theorem OneShot.congr (h : s.OneShot e) (hevents : s'.timer.events e = s.timer.events e) :
    s'.OneShot e :=
  ⟨hevents ▸ h.isRepeated, hevents ▸ h.isCanceled, hevents ▸ h.hasTask⟩

/-- As long as `e` is neither added nor deleted, each run of its callback is one that
was outstanding. -/
theorem OneShot.step {op : TimerOp ε} {out : TimerOutput ε} (h : s.OneShot e)
    (hadd : op ≠ .addTimerEvent e) (hdelete : op ≠ .deleteTimerEvent e)
    (hstep : machine.step s op = some (s', out)) :
    s'.OneShot e ∧ s'.outstanding e + [out].count (.fired e) = s.outstanding e := by
  cases op with
  | addTimerEvent a =>
      cases hstep
      have hne : a ≠ e := fun heq => hadd (heq ▸ rfl)
      refine ⟨h.congr (congrFun Timer.events_addTimerEvent e), ?_⟩
      rw [outstanding, outstanding, Timer.count_addTimerEvent, List.count_singleton,
        if_neg (by simpa using hne)]
      rfl
  | deleteTimerEvent a =>
      cases hstep
      have hne : e ≠ a := fun heq => hdelete (heq ▸ rfl)
      have hevents : (s.timer.deleteTimerEvent a).events e = s.timer.events e := by
        simp [Timer.deleteTimerEvent, hne]
      refine ⟨h.congr hevents, ?_⟩
      rw [outstanding, outstanding, Timer.count_deleteTimerEvent hne]
      rfl
  | onTimer =>
      obtain ⟨htasks, rfl, rfl⟩ := onTimer_cases hstep
      refine ⟨h.congr (Timer.onTimer_of_oneShot s.clock h.isRepeated).1, ?_⟩
      have hcount := Timer.count_onTimer_of_oneShot s.clock h.isRepeated h.isCanceled
      rw [outstanding, outstanding, htasks, List.count_nil, add_zero]
      exact hcount
  | runTask =>
      obtain ⟨a, tasks, htasks, rfl, rfl⟩ := runTask_cases hstep
      refine ⟨h.congr rfl, ?_⟩
      by_cases hne : a = e
      · subst hne
        simp [outstanding, htasks, h.hasTask]
        omega
      · have hout : (if (s.timer.events a).hasTask then TimerOutput.fired a else .done) ≠
            .fired e := by
          split
          · simpa using hne
          · exact fun heq => by cases heq
        rw [outstanding, outstanding, htasks, List.count_cons_of_ne hne,
          List.count_singleton, if_neg (by simpa using hout)]
        rfl
  | advance ms =>
      cases hstep
      exact ⟨h.congr rfl, by simp [outstanding]⟩

theorem OneShot.run {ops : List (TimerOp ε)} {outs : List (TimerOutput ε)} (h : s.OneShot e)
    (hadd : .addTimerEvent e ∉ ops) (hdelete : .deleteTimerEvent e ∉ ops)
    (hrun : machine.run s ops = some (s', outs)) :
    s'.OneShot e ∧ s'.outstanding e + outs.count (.fired e) = s.outstanding e := by
  induction ops generalizing s outs with
  | nil =>
      cases hrun
      exact ⟨h, rfl⟩
  | cons op ops ih =>
      obtain ⟨u, out, outs', hstep, hrest, rfl⟩ :=
        (machine.run_cons_eq_some_iff s op ops s' outs).1 hrun
      rw [List.mem_cons, not_or] at hadd hdelete
      obtain ⟨hu, hcount⟩ := h.step (Ne.symm hadd.1) (Ne.symm hdelete.1) hstep
      obtain ⟨hs', hcount'⟩ := ih hu hadd.2 hdelete.2 hrest
      refine ⟨hs', ?_⟩
      rw [← List.singleton_append, List.count_append]
      omega

/-- `e` is not pending, and its callback is not run in any continuation, unless `e` is
added again. -/
structure Retired (s : TimerRun ε) (e : ε) : Prop where
  not_pending : ¬ s.timer.Pending e
  not_fired : ∀ ops t outs, .addTimerEvent e ∉ ops → machine.run s ops = some (t, outs) →
    .fired e ∉ outs

theorem retired_iff_absent : s.Retired e ↔ s.Absent e := by
  constructor
  · intro h
    refine ⟨h.not_pending, fun hwaits => ?_⟩
    obtain ⟨n, t, outs, hrun⟩ := exists_run_fired hwaits
    have hops : TimerOp.addTimerEvent e ∉ List.replicate n TimerOp.runTask :=
      fun hmem => by cases List.eq_of_mem_replicate hmem
    exact h.not_fired _ t _ hops hrun (List.mem_append_right _ List.mem_cons_self)
  · intro h
    exact ⟨h.not_pending, fun _ _ _ hops hrun => h.not_fired hops hrun⟩

theorem OneShot.pending_or_waits (h : s.OneShot e) (hcount : s.outstanding e ≠ 0) :
    s.timer.Pending e ∨ s.Waits e := by
  by_cases hmem : e ∈ s.tasks
  · exact Or.inr ⟨hmem, h.hasTask⟩
  · refine Or.inl (List.count_pos_iff.1 ?_)
    rw [outstanding, List.count_eq_zero_of_not_mem hmem] at hcount
    exact Nat.pos_of_ne_zero hcount

theorem not_pending_of_outstanding (hcount : s.outstanding e = 0) : ¬ s.timer.Pending e :=
  List.count_eq_zero.1 (Nat.eq_zero_of_add_eq_zero_right hcount)

end TimerRun

open TimerRun

/-- The timer agrees with the list of the events that are left in it, as far as the
event `e` of a call goes. -/
structure TimerRun.Agrees (s : TimerRun ℕ) (timerEvents : List ℕ) (e : ℕ) : Prop where
  ordered : s.timer.Ordered
  once : timerEvents.count e ≤ 1
  left : e ∈ timerEvents → s.OneShot e ∧ s.outstanding e = 1
  gone : e ∉ timerEvents → ¬ s.timer.Pending e

/-- The timer runs on in each of the hooked calls of a call with the event `e`, one after the
other; `fired` says in which of them the callback of `e` has been run. -/
inductive TimerRun.Suspends (e : ℕ) : TimerRun ℕ → List Bool → TimerRun ℕ → Prop
  | nil (s : TimerRun ℕ) : Suspends e s [] s
  | cons {s u t : TimerRun ℕ} {ops : List (TimerOp ℕ)} {outs : List (TimerOutput ℕ)}
      {fired : List Bool} (hfresh : machine.Meets AddsFresh s ops)
      (hadd : .addTimerEvent e ∉ ops) (hdelete : .deleteTimerEvent e ∉ ops)
      (hrun : machine.run s ops = some (u, outs)) (hrest : Suspends e u fired t) :
      Suspends e s (outs.contains (.fired e) :: fired) t

theorem TcpClient.agrees_startCall {client : TcpClient} {s : TimerRun ℕ}
    (hnew : client.timerEventCount ∉ client.timerEvents) (hord : s.timer.Ordered)
    (hshot : s.OneShot client.timerEventCount) (hcount : s.outstanding client.timerEventCount = 0) :
    Agrees { s with timer := s.timer.addTimerEvent s.clock client.timerEventCount }
      client.startCall.client.timerEvents client.timerEventCount where
  ordered := hord.addTimerEvent (not_pending_of_outstanding hcount)
  once := by
    rw [TcpClient.startCall, List.count_cons_self, List.count_eq_zero_of_not_mem hnew]
  left _ := by
    refine ⟨⟨?_, ?_, ?_⟩, ?_⟩
    · simpa using hshot.isRepeated
    · simpa using hshot.isCanceled
    · simpa using hshot.hasTask
    · rw [outstanding, Nat.add_eq_zero_iff] at hcount
      rw [outstanding, Timer.count_addTimerEvent, List.count_singleton_self, hcount.1]
      exact congrArg (1 + ·) hcount.2
  gone hnot := absurd List.mem_cons_self hnot

namespace TimerRun.Agrees

variable {call : ClientCall} {s s' : TimerRun ℕ}

/-- While a hooked call is suspended, the timer runs on. The call is told whether its
own callback has been run. -/
theorem resume (h : s.Agrees call.client.timerEvents call.event) {ops : List (TimerOp ℕ)}
    {outs : List (TimerOutput ℕ)} (hfresh : machine.Meets AddsFresh s ops)
    (hadd : .addTimerEvent call.event ∉ ops) (hdelete : .deleteTimerEvent call.event ∉ ops)
    (hrun : machine.run s ops = some (s', outs)) (c : TcpConnection) :
    s'.Agrees (call.resume c (outs.contains (.fired call.event))).client.timerEvents
      call.event := by
  have hord := hfresh.run_invariant (I := fun s => s.timer.Ordered)
    (fun _ _ _ _ hs hok hstep => ordered_of_step hs hok hstep) h.ordered hrun
  by_cases hmem : call.event ∈ call.client.timerEvents
  · obtain ⟨hshot, hcount⟩ := h.left hmem
    obtain ⟨hshot', hcount'⟩ := hshot.run hadd hdelete hrun
    by_cases hfired : .fired call.event ∈ outs
    · have hpos := List.count_pos_iff.2 hfired
      have herase : call.event ∉ call.client.timerEvents.erase call.event := by
        rw [← List.count_eq_zero, List.count_erase_self]
        have honce := h.once
        omega
      rw [ClientCall.resume, if_pos (List.contains_iff_mem.2 hfired)]
      refine ⟨hord, ?_, fun hleft => absurd hleft herase, fun _ => ?_⟩
      · rw [List.count_eq_zero_of_not_mem herase]
        exact Nat.zero_le 1
      · exact not_pending_of_outstanding (by omega)
    · have hzero := List.count_eq_zero_of_not_mem hfired
      rw [ClientCall.resume, if_neg (mt List.contains_iff_mem.1 hfired)]
      exact ⟨hord, h.once, fun _ => ⟨hshot', by omega⟩, fun hnot => absurd hmem hnot⟩
  · have hpending := (Machine.run_forall (I := fun s => ¬ s.timer.Pending call.event)
      (A := (· ≠ .addTimerEvent call.event)) (P := fun _ => True)
      (fun _ _ _ _ hs hop hstep => ⟨not_pending_of_step hs hop hstep, trivial⟩)
      (fun _ hop heq => hadd (by rwa [heq] at hop)) (h.gone hmem) hrun).1
    have hevents : (call.resume c (outs.contains (.fired call.event))).client.timerEvents =
        call.client.timerEvents := by
      rw [ClientCall.resume, List.erase_of_not_mem hmem, ite_self]
    exact ⟨hord, hevents ▸ h.once, fun hleft => absurd (hevents ▸ hleft) hmem, fun _ => hpending⟩

theorem deleteTimerEvent (h : s.Agrees call.client.timerEvents call.event) :
    Agrees { s with timer := s.timer.deleteTimerEvent call.event }
      call.deleteTimerEvent.timerEvents call.event := by
  have herase : call.event ∉ call.client.timerEvents.erase call.event := by
    rw [← List.count_eq_zero, List.count_erase_self]
    have honce := h.once
    omega
  refine ⟨h.ordered.deleteTimerEvent call.event, ?_, fun hleft => absurd hleft herase, fun _ => ?_⟩
  · rw [ClientCall.deleteTimerEvent, List.count_eq_zero_of_not_mem herase]
    exact Nat.zero_le 1
  · rw [Timer.Pending, h.ordered.entries_deleteTimerEvent]
    rintro hp
    rcases List.mem_map.1 hp with ⟨p, hmem, heq⟩
    simpa [heq] using List.of_mem_filter hmem

/-- What the hooked calls of a call leave: the event is taken off the list when its callback has
been run in one of them. -/
theorem suspends {fired : List Bool} (h : s.Agrees call.client.timerEvents call.event)
    (hs : Suspends call.event s fired s') :
    s'.Agrees (if fired.any id then call.client.timerEvents.erase call.event
      else call.client.timerEvents) call.event := by
  generalize hevent : call.event = e at hs
  induction hs generalizing call with
  | nil s =>
      rw [← hevent]
      exact h
  | @cons s u t ops outs fired hfresh hadd hdelete hrun hrest ih =>
      subst hevent
      have hresume := h.resume hfresh hadd hdelete hrun call.client.connection
      have hnext := ih hresume rfl
      rw [List.any_cons, id_eq]
      cases hfired : outs.contains (.fired call.event) with
      | false =>
          rw [hfired] at hnext
          exact hnext
      | true =>
          -- It is in the list once, so it is not taken off again.
          have herase : (call.client.timerEvents.erase call.event).erase call.event =
              call.client.timerEvents.erase call.event := by
            refine List.erase_of_not_mem ?_
            rw [← List.count_eq_zero, List.count_erase_self]
            have honce := h.once
            omega
          rw [hfired, ClientCall.resume, if_pos rfl] at hnext
          dsimp only at hnext
          rw [herase, ite_self] at hnext
          exact hnext

/-- The event of the call is retired unless the call has left it in the timer, or its
callback waits at that moment. -/
theorem retired_iff {timerEvents : List ℕ} {e : ℕ} (h : s.Agrees timerEvents e) :
    s.Retired e ↔ e ∉ timerEvents ∧ ¬ s.Waits e := by
  rw [retired_iff_absent]
  constructor
  · intro habsent
    refine ⟨fun hmem => ?_, habsent.not_waits⟩
    obtain ⟨hshot, hcount⟩ := h.left hmem
    rcases hshot.pending_or_waits (by omega) with hp | hwaits
    · exact habsent.not_pending hp
    · exact habsent.not_waits hwaits
  · rintro ⟨hnot, hwaits⟩
    exact ⟨h.gone hnot, hwaits⟩

end TimerRun.Agrees

/-- The timer of a whole call: the event is added, the timer runs on in the hooked calls, and at
the end the call deletes the event or does not. -/
theorem TcpClient.agrees_of_suspends {client : TcpClient} {s s' : TimerRun ℕ} {fired : List Bool}
    (hnew : client.timerEventCount ∉ client.timerEvents) (hord : s.timer.Ordered)
    (hshot : s.OneShot client.timerEventCount) (hcount : s.outstanding client.timerEventCount = 0)
    (hs : Suspends client.timerEventCount
      { s with timer := s.timer.addTimerEvent s.clock client.timerEventCount } fired s') :
    s'.Agrees (if fired.any id then client.timerEvents
        else client.timerEventCount :: client.timerEvents) client.timerEventCount ∧
      Agrees { s' with timer := s'.timer.deleteTimerEvent client.timerEventCount }
        client.timerEvents client.timerEventCount := by
  have hstart : Agrees
      { s with timer := s.timer.addTimerEvent s.clock client.timerEventCount }
      client.startCall.client.timerEvents client.startCall.event :=
    agrees_startCall hnew hord hshot hcount
  have hagrees := hstart.suspends hs
  have herase : client.startCall.client.timerEvents.erase client.startCall.event =
      client.timerEvents := List.erase_cons_head ..
  rw [herase] at hagrees
  refine ⟨hagrees, ?_⟩
  -- The call as its hooked calls have left it.
  let call : ClientCall := client.startCall.resume client.connection (fired.any id)
  have hlist : call.client.timerEvents = if fired.any id then client.timerEvents
      else client.timerEventCount :: client.timerEvents := by
    change (if fired.any id then client.startCall.client.timerEvents.erase client.startCall.event
      else client.startCall.client.timerEvents) = _
    rw [herase]
    rfl
  have hcall : s'.Agrees call.client.timerEvents call.event := hlist.symm ▸ hagrees
  have hdelete := hcall.deleteTimerEvent
  have hevents : call.deleteTimerEvent.timerEvents = client.timerEvents := by
    change call.client.timerEvents.erase client.timerEventCount = _
    rw [hlist]
    split_ifs
    · exact List.erase_of_not_mem hnew
    · exact List.erase_cons_head ..
  rw [hevents] at hdelete
  exact hdelete

end Rocket
