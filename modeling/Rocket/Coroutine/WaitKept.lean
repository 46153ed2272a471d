import Mathlib.Data.Fintype.Basic
import Rocket.Coroutine.WokenByWait

/-!
# No wait is lost

A coroutine that waits is resumed by the callback that it has installed. So as long as it waits,
the kernel has to have its event registered, and the `FdEvent` its callback, until the callback
has been copied. Several steps could take this away: one that closes the descriptor or takes it
off the epoll set, and another coroutine that begins to wait for the same event, whose callback
replaces the first one. The loop itself takes a descriptor off when `epoll_wait` reports an
error, after the events that are reported together with it.
-/

namespace Rocket

open Foundation

namespace EpollRun

variable {s : EpollRun} {fd fd' : ℕ} {ev ev' : TriggerEvent} {b : Bool}

/-- What is added to an epoll set that is in step with `m_listen_fds`. -/
theorem Synced.listen_of_mem (h : s.Synced) (hfd : fd ∈ s.openFds) (ev : TriggerEvent) (b : Bool) :
    (s.listen fd ev b).1 =
      { s with
        fdGroup := Function.update s.fdGroup fd ((s.fdGroup fd).set b ev)
        registered := Function.update s.registered fd (some ((s.fdGroup fd).set b ev))
        listenFds := insert fd s.listenFds } := by
  have hgroup : Synced { s with
      fdGroup := Function.update s.fdGroup fd ((s.fdGroup fd).set b ev) } :=
    ⟨h.mirrored, h.registersOpen⟩
  exact congrArg Prod.fst (hgroup.addToEpoll_of_mem ⟨fd, (s.fdGroup fd).set b ev⟩ hfd)

theorem Synced.listen (h : s.Synced) (hfd : fd ∈ s.openFds) : (s.listen fd ev b).1.Synced :=
  ⟨((h.listen_iff fd ev b).2 hfd).1, h.registersOpen.listen fd ev b⟩

/-- The kernel waits for the event. -/
def Waits (s : EpollRun) (fd : ℕ) (ev : TriggerEvent) : Prop :=
  ∃ mask ∈ s.registered fd, mask.has ev = true

theorem Waits.listen (hwaits : s.Waits fd' ev') (h : s.Synced) (hgrouped : s.Grouped)
    (hfd : fd ∈ s.openFds) (hne : ¬ (fd' = fd ∧ ev' = ev)) :
    (s.listen fd ev b).1.Waits fd' ev' := by
  obtain ⟨mask, hmask, hhas⟩ := hwaits
  rw [h.listen_of_mem hfd]
  by_cases heq : fd' = fd
  · subst heq
    refine ⟨_, Function.update_self .., ?_⟩
    rw [(hgrouped.listens fd' mask hmask).2] at hhas
    cases ev <;> cases ev' <;> simp_all [EpollEvents.has, EpollEvents.set]
  · refine ⟨mask, ?_, hhas⟩
    exact (Function.update_of_ne heq ..).trans hmask

theorem Synced.waits_listen (h : s.Synced) (hfd : fd ∈ s.openFds) :
    (s.listen fd ev true).1.Waits fd ev := by
  rw [h.listen_of_mem hfd]
  refine ⟨_, Function.update_self .., ?_⟩
  cases ev <;> rfl

theorem openFds_listen : (s.listen fd ev b).1.openFds = s.openFds :=
  (frame_epollCtl
    (s := { s with fdGroup := Function.update s.fdGroup fd ((s.fdGroup fd).set b ev) })
    (if fd ∈ s.listenFds then .mod else .add) ⟨fd, (s.fdGroup fd).set b ev⟩).1

theorem openFds_deleteFromEpoll (event : FdEvent) :
    (s.deleteFromEpoll event).1.openFds = s.openFds := by
  unfold deleteFromEpoll
  split_ifs
  · exact (frame_epollCtl .del event).1
  · rfl

theorem registered_deleteFromEpoll (h : s.Synced) (fd : ℕ) (events : EpollEvents) :
    (s.deleteFromEpoll ⟨fd, events⟩).1.registered fd = none := by
  have hdelete := h.deleteFromEpoll ⟨fd, events⟩
  have hnot : fd ∉ (s.deleteFromEpoll ⟨fd, events⟩).1.listenFds := by
    rw [hdelete.2.1]
    exact Finset.notMem_erase fd _
  rw [hdelete.1.mirrored] at hnot
  simpa using hnot

theorem registered_deleteFromEpoll_of_ne {event : FdEvent} (h : s.Synced) (hne : fd ≠ event.fd) :
    (s.deleteFromEpoll event).1.registered fd = s.registered fd := by
  by_cases hmem : event.fd ∈ s.listenFds
  · rw [h.deleteFromEpoll_of_mem hmem]
    exact Function.update_of_ne hne ..
  · rw [deleteFromEpoll, if_pos hmem]

end EpollRun

namespace HookedLoop

variable {ι ε : Type}

def Copied (s : HookedLoop ι ε) (cor : ι) (wait : HookWait ε) : Prop :=
  some (.callback ⟨cor, wait⟩) ∈ s.tasks

/-- The callback of the wait will be copied as soon as its event is reported. -/
structure Armed (s : HookedLoop ι ε) (cor : ι) (wait : HookWait ε) : Prop where
  waits : s.epoll.Waits wait.fd wait.ev
  handler : (s.callbacks wait.fd).handler wait.ev = some ⟨cor, wait⟩

/-- The descriptor is open, and no coroutine waits for the event. -/
def Free (s : HookedLoop ι ε) (fd : ℕ) (ev : TriggerEvent) : Prop :=
  fd ∈ s.epoll.openFds ∧ ∀ cor, ∀ wait ∈ (s.cors cor).wait?, ¬ (wait.fd = fd ∧ wait.ev = ev)

/-- The callback of whoever waits for the descriptor has been copied. -/
def Settled (s : HookedLoop ι ε) (fd : ℕ) : Prop :=
  ∀ cor, ∀ wait ∈ (s.cors cor).wait?, wait.fd = fd → s.Copied cor wait

def KeepsBit (s : HookedLoop ι ε) : List ReadyBit → Prop
  | .error fd :: _ => s.Settled fd
  | _ => True

/-- What does not take a wait away. -/
def KeepsWaits (s : HookedLoop ι ε) : HookOp ι ε → Prop
  | .readHook fd | .acceptHook fd => s.Free fd .inEvent
  | .writeHook fd | .connectHook fd _ => s.Free fd .outEvent
  | .close fd => fd ∉ s.epoll.listenFds ∧ ∀ cor, ∀ wait ∈ (s.cors cor).wait?, wait.fd ≠ fd
  | .deleteEpollEvent fd | .clear fd => s.Settled fd
  | .dispatch => s.KeepsBit s.place.bits
  | _ => True

section Decidable

variable [DecidableEq ι] [DecidableEq ε] [Fintype ι] (s : HookedLoop ι ε)

omit [Fintype ι] in
instance (cor : ι) (wait : HookWait ε) : Decidable (s.Copied cor wait) :=
  inferInstanceAs (Decidable (_ ∈ s.tasks))

instance (fd : ℕ) (ev : TriggerEvent) : Decidable (s.Free fd ev) :=
  inferInstanceAs (Decidable (fd ∈ s.epoll.openFds ∧
    ∀ cor, ∀ wait ∈ (s.cors cor).wait?, ¬ (wait.fd = fd ∧ wait.ev = ev)))

instance (fd : ℕ) : Decidable (s.Settled fd) :=
  inferInstanceAs (Decidable (∀ cor, ∀ wait ∈ (s.cors cor).wait?,
    wait.fd = fd → s.Copied cor wait))

instance : ∀ bits, Decidable (s.KeepsBit bits)
  | .error fd :: _ => inferInstanceAs (Decidable (s.Settled fd))
  | [] | .timerFd :: _ | .wakeUpFd :: _ | .event _ _ :: _ => isTrue trivial

instance : ∀ op, Decidable (s.KeepsWaits op)
  | .readHook fd | .acceptHook fd => inferInstanceAs (Decidable (s.Free fd .inEvent))
  | .writeHook fd | .connectHook fd _ => inferInstanceAs (Decidable (s.Free fd .outEvent))
  | .close fd => inferInstanceAs (Decidable (fd ∉ s.epoll.listenFds ∧
      ∀ cor, ∀ wait ∈ (s.cors cor).wait?, wait.fd ≠ fd))
  | .deleteEpollEvent fd | .clear fd => inferInstanceAs (Decidable (s.Settled fd))
  | .dispatch => inferInstanceAs (Decidable (s.KeepsBit s.place.bits))
  | .addTask | .addCoroutine _ | .advance _ | .resume _ | .swap | .runTask | .runTimer
  | .epollWait _ | .newTimerEvent _ _ _ _ | .addTimerEvent _ | .deleteTimerEvent _ | .opened _
  | .finish => isTrue trivial

end Decidable

/-- What is kept: no two coroutines wait for the same event, the descriptors that they wait for
are open, and the callback of each wait is installed or has been copied. -/
structure Kept (s : HookedLoop ι ε) : Prop where
  synced : s.epoll.Synced
  opens : ∀ cor wait, s.cors cor = .waiting wait → wait.fd ∈ s.epoll.openFds
  unique : ∀ cor wait cor' wait', s.cors cor = .waiting wait → s.cors cor' = .waiting wait' →
    wait.fd = wait'.fd → wait.ev = wait'.ev → cor = cor'
  held : ∀ cor wait, s.cors cor = .waiting wait → s.Armed cor wait ∨ s.Copied cor wait

theorem kept_new (openFds : Finset ℕ) (clock : ℤ) (events : ε → TimerEvent) :
    (new openFds clock events : HookedLoop ι ε).Kept :=
  ⟨EpollRun.synced_start openFds, fun _ _ => nofun, fun _ _ _ _ => nofun, fun _ _ => nofun⟩

section Steps

variable {s s' : HookedLoop ι ε}

theorem Kept.mono (h : s.Kept) (hepoll : s'.epoll = s.epoll)
    (hcallbacks : s'.callbacks = s.callbacks)
    (hcors : ∀ cor wait, s'.cors cor = .waiting wait → s.cors cor = .waiting wait)
    (htasks : ∀ cor wait, s'.cors cor = .waiting wait → s.Copied cor wait → s'.Copied cor wait) :
    s'.Kept := by
  refine ⟨hepoll ▸ h.synced, fun cor wait hcor => ?_, fun cor wait cor' wait' hcor hcor' => ?_,
    fun cor wait hcor => ?_⟩
  · rw [hepoll]
    exact h.opens cor wait (hcors cor wait hcor)
  · exact h.unique cor wait cor' wait' (hcors _ _ hcor) (hcors _ _ hcor')
  · refine (h.held cor wait (hcors cor wait hcor)).imp (fun harmed => ⟨?_, ?_⟩)
      (htasks cor wait hcor)
    · rw [hepoll]
      exact harmed.waits
    · rw [hcallbacks]
      exact harmed.handler

theorem Kept.of_epoll {epoll : EpollRun} (h : s.Kept) (hsynced : epoll.Synced)
    (hopen : ∀ cor wait, s.cors cor = .waiting wait → wait.fd ∈ epoll.openFds)
    (hsame : ∀ cor wait, s.cors cor = .waiting wait →
      s.Copied cor wait ∨ epoll.registered wait.fd = s.epoll.registered wait.fd) :
    Kept { s with epoll := epoll } := by
  refine ⟨hsynced, hopen, h.unique, fun cor wait hcor => ?_⟩
  rcases hsame cor wait hcor with hcopied | heq
  · exact Or.inr hcopied
  · refine (h.held cor wait hcor).imp (fun harmed => ⟨?_, harmed.handler⟩) id
    obtain ⟨mask, hmask, hhas⟩ := harmed.waits
    exact ⟨mask, heq.trans hmask, hhas⟩

theorem wait?_eq_some {cor : ι} {wait : HookWait ε} (h : s.cors cor = .waiting wait) :
    wait ∈ (s.cors cor).wait? := by
  rw [h]
  rfl

theorem cors_of_wait? {cor : ι} {wait : HookWait ε} (h : wait ∈ (s.cors cor).wait?) :
    s.cors cor = .waiting wait := by
  cases hcor : s.cors cor with
  | waiting w =>
      rw [hcor] at h
      exact congrArg HookedCor.waiting (Option.some.inj h)
  | created | submitted | running | finished =>
      rw [hcor] at h
      cases h

theorem Kept.deleteFromEpoll {fd : ℕ} {events : EpollEvents} {epoll : EpollRun} (h : s.Kept)
    (hsettled : s.Settled fd) (hsynced : epoll.Synced) (hopenFds : epoll.openFds = s.epoll.openFds)
    (hregistered : epoll.registered = s.epoll.registered) :
    Kept { s with epoll := (epoll.deleteFromEpoll ⟨fd, events⟩).1 } := by
  refine h.of_epoll (hsynced.deleteFromEpoll _).1 (fun cor wait hcor => ?_)
    fun cor wait hcor => ?_
  · rw [EpollRun.openFds_deleteFromEpoll, hopenFds]
    exact h.opens cor wait hcor
  · by_cases hfd : wait.fd = fd
    · exact Or.inl (hsettled cor wait (wait?_eq_some hcor) hfd)
    · exact Or.inr ((EpollRun.registered_deleteFromEpoll_of_ne hsynced hfd).trans
        (congrFun hregistered wait.fd))

theorem Kept.close {fd : ℕ} (h : s.Kept) (hkeeps : fd ∉ s.epoll.listenFds ∧
    ∀ cor, ∀ wait ∈ (s.cors cor).wait?, wait.fd ≠ fd) :
    Kept { s with epoll := s.epoll.close fd } := by
  obtain ⟨hlisten, hnone⟩ := hkeeps
  have hsynced : (s.epoll.close fd).Synced :=
    ⟨(h.synced.mirrored_close_iff fd).2 hlisten, h.synced.registersOpen.close fd⟩
  refine h.of_epoll hsynced (fun cor wait hcor => ?_) fun cor wait hcor => Or.inr ?_
  · have hne := hnone cor wait (wait?_eq_some hcor)
    have hopen := h.opens cor wait hcor
    unfold EpollRun.close
    split_ifs
    · exact Finset.mem_erase.2 ⟨hne, hopen⟩
    · exact hopen
  · have hne := hnone cor wait (wait?_eq_some hcor)
    unfold EpollRun.close
    split_ifs
    · exact Function.update_of_ne hne ..
    · rfl

theorem Kept.opened {fd : ℕ} {epoll : EpollRun} (h : s.Kept)
    (hopened : s.epoll.opened fd = some epoll) : Kept { s with epoll := epoll } := by
  obtain ⟨_, heq⟩ := Option.ite_none_left_eq_some.1 hopened
  cases heq
  refine h.of_epoll ⟨h.synced.mirrored, fun fd' hreg => ?_⟩ (fun cor wait hcor => ?_)
    fun _ _ _ => Or.inr rfl
  · exact Finset.mem_insert_of_mem (h.synced.registersOpen fd' hreg)
  · exact Finset.mem_insert_of_mem (h.opens cor wait hcor)

section Resume

variable [DecidableEq ι] [DecidableEq ε] {cor : ι} {wait : HookWait ε}

theorem Kept.goOn (h : s.Kept) (hgrouped : s.epoll.Grouped) (hcor : s.cors cor = .waiting wait) :
    (s.goOn cor wait).Kept := by
  have hopen := h.opens cor wait hcor
  have hcors (c : ι) (w : HookWait ε) (hw : (s.goOn cor wait).cors c = .waiting w) :
      c ≠ cor ∧ s.cors c = .waiting w := by
    have hne : c ≠ cor := by
      rintro rfl
      cases (Function.update_self ..).symm.trans hw
    exact ⟨hne, (Function.update_of_ne hne ..).symm.trans hw⟩
  refine ⟨h.synced.listen hopen, fun c w hw => ?_, fun c w c' w' hw hw' => ?_, fun c w hw => ?_⟩
  · change w.fd ∈ (s.epoll.listen wait.fd wait.ev false).1.openFds
    rw [EpollRun.openFds_listen]
    exact h.opens c w (hcors c w hw).2
  · exact h.unique c w c' w' (hcors c w hw).2 (hcors c' w' hw').2
  · obtain ⟨hne, hold⟩ := hcors c w hw
    refine (h.held c w hold).imp (fun harmed => ⟨?_, harmed.handler⟩) id
    refine harmed.waits.listen h.synced hgrouped hopen fun hsame => ?_
    exact hne (h.unique c w cor wait hold hcor hsame.1 hsame.2)

theorem Kept.resume (h : s.Kept) (hgrouped : s.epoll.Grouped) (cor : ι) : (s.resume cor).Kept := by
  have hcors {c : ι} {w : HookWait ε}
      (hw : Function.update s.cors cor .running c = .waiting w) : s.cors c = .waiting w := by
    by_cases heq : c = cor
    · rw [heq, Function.update_self] at hw
      cases hw
    · rwa [Function.update_of_ne heq] at hw
  unfold HookedLoop.resume
  split
  · exact h.mono rfl rfl (fun c w => hcors) fun _ _ _ hcopied => hcopied
  · exact h.mono rfl rfl (fun c w => hcors) fun _ _ _ hcopied => hcopied
  · rename_i wait hcor
    exact h.goOn hgrouped hcor
  · exact h.mono rfl rfl (fun _ _ hw => hw) fun _ _ _ hcopied => hcopied
  · exact h.mono rfl rfl (fun _ _ hw => hw) fun _ _ _ hcopied => hcopied

theorem Kept.hook {fd : ℕ} {ev : TriggerEvent} {timer : Option ε} (h : s.Kept)
    (hgrouped : s.epoll.Grouped) (hfree : s.Free fd ev) (hhook : s.hook fd ev timer = some s') :
    s'.Kept := by
  rcases Option.bind_eq_some_iff.1 hhook with ⟨cor, hcur, hbody⟩
  obtain ⟨hcor, heq⟩ := Option.ite_none_right_eq_some.1 hbody
  obtain ⟨hopen, hnone⟩ := hfree
  cases heq
  have hother (c : ι) (w : HookWait ε) (hne : c ≠ cor)
      (hw : Function.update s.cors cor (.waiting ⟨fd, ev, s.waits, timer⟩) c = .waiting w) :
      s.cors c = .waiting w ∧ ¬ (w.fd = fd ∧ w.ev = ev) := by
    rw [Function.update_of_ne hne] at hw
    exact ⟨hw, hnone c w (wait?_eq_some hw)⟩
  have hself (w : HookWait ε)
      (hw : Function.update s.cors cor (.waiting ⟨fd, ev, s.waits, timer⟩) cor = .waiting w) :
      w = ⟨fd, ev, s.waits, timer⟩ := by
    rw [Function.update_self] at hw
    exact (HookedCor.waiting.inj hw).symm
  refine ⟨h.synced.listen hopen, fun c w hw => ?_, fun c w c' w' hw hw' hfd hev => ?_,
    fun c w hw => ?_⟩
  · change w.fd ∈ (s.epoll.listen fd ev true).1.openFds
    rw [EpollRun.openFds_listen]
    by_cases hne : c = cor
    · subst hne
      rw [hself w hw]
      exact hopen
    · exact h.opens c w (hother c w hne hw).1
  · by_cases hne : c = cor
    · subst hne
      obtain rfl := hself w hw
      by_contra hne'
      exact (hother c' w' (Ne.symm hne') hw').2 ⟨hfd.symm, hev.symm⟩
    · obtain ⟨hold, hnot⟩ := hother c w hne hw
      by_cases hne' : c' = cor
      · subst hne'
        obtain rfl := hself w' hw'
        exact absurd ⟨hfd, hev⟩ hnot
      · exact h.unique c w c' w' hold (hother c' w' hne' hw').1 hfd hev
  · by_cases hne : c = cor
    · subst hne
      obtain rfl := hself w hw
      refine Or.inl ⟨h.synced.waits_listen hopen, ?_⟩
      simp only [Function.update_self, FdCallbacks.handler_listen, if_true]
    · obtain ⟨hold, hnot⟩ := hother c w hne hw
      refine (h.held c w hold).imp (fun harmed => ⟨?_, ?_⟩) id
      · exact harmed.waits.listen h.synced hgrouped hopen hnot
      · rw [← harmed.handler]
        by_cases hfd : w.fd = fd
        · subst hfd
          have hev : w.ev ≠ ev := fun hev => hnot ⟨rfl, hev⟩
          simp only [Function.update_self, FdCallbacks.handler_listen, if_neg hev]
        · simp only [Function.update_of_ne hfd]

theorem Kept.connectHook {fd : ℕ} {e : ε} (h : s.Kept) (hgrouped : s.epoll.Grouped)
    (hfree : s.Free fd .outEvent) (hhook : s.connectHook fd e = some s') : s'.Kept := by
  obtain ⟨_, hbody⟩ := Option.ite_none_left_eq_some.1 hhook
  have hmade : Kept ((s.newTimerEvent e 10000 false true).addTimerEvent e) :=
    h.mono rfl rfl (fun _ _ hw => hw) fun _ _ _ hcopied => hcopied
  exact hmade.hook hgrouped hfree hbody

end Resume

section Loop

theorem Kept.of_tasks (h : s.Kept) (hepoll : s'.epoll = s.epoll)
    (hcallbacks : s'.callbacks = s.callbacks) (hcors : s'.cors = s.cors)
    (htasks : ∀ task ∈ s.tasks, task ∈ s'.tasks) : s'.Kept :=
  h.mono hepoll hcallbacks (fun _ _ hw => hcors ▸ hw) fun _ _ _ hcopied => htasks _ hcopied

theorem Kept.addTask (h : s.Kept) (task : Option (HookTask ι ε)) : (s.addTask task).Kept :=
  h.of_tasks rfl rfl rfl fun task' hmem => by
    rw [tasks_addTask]
    exact List.mem_append_left _ hmem

theorem Kept.pop {task : Option (HookTask ι ε)} {tempTasks : List (Option (HookTask ι ε))}
    (h : s.Kept) (hplace : s.place = .draining (task :: tempTasks))
    (htask : ∀ cor wait, task = some (.callback ⟨cor, wait⟩) → s.cors cor ≠ .waiting wait) :
    Kept { s with place := .draining tempTasks } := by
  refine h.mono rfl rfl (fun _ _ hw => hw) fun cor wait hw hcopied => ?_
  have htasks : s.tasks = task :: tasks { s with place := .draining tempTasks } := by
    rw [tasks, tasks, hplace]
    rfl
  rw [Copied, htasks, List.mem_cons] at hcopied
  exact hcopied.resolve_left fun heq => htask cor wait heq.symm hw

theorem Kept.dispatch {bit : ReadyBit} {bits : List ReadyBit} (h : s.Kept)
    (htracked : s.Tracked) (hplace : s.place = .dispatching (bit :: bits))
    (hkeeps : s.KeepsBit (bit :: bits)) :
    Kept ({ s with place := .dispatching bits }.dispatch bit) := by
  have hpassed : Kept { s with place := .dispatching bits } :=
    h.of_tasks rfl rfl rfl fun task hmem => by
      rwa [tasks, hplace] at hmem
  cases bit with
  | timerFd => exact hpassed.addTask _
  | wakeUpFd => exact hpassed.addTask _
  | event fd ev => exact hpassed.addTask _
  | error fd =>
      have hnone : ¬ (s.callbacks fd).errorCallback.isSome = true := by
        rw [htracked.mapped.noError fd]
        exact Bool.false_ne_true
      simp only [HookedLoop.dispatch, if_neg hnone]
      refine hpassed.deleteFromEpoll (fun cor wait hw hfd => ?_) h.synced rfl rfl
      have hcopied := hkeeps cor wait hw hfd
      rwa [Copied, tasks, hplace] at hcopied

theorem Kept.pop_of_key {task : Option (HookTask ι ε)} {tempTasks : List (Option (HookTask ι ε))}
    (h : s.Kept) (hplace : s.place = .draining (task :: tempTasks))
    (hkey : HookTask.key task = none) : Kept { s with place := .draining tempTasks } := by
  refine h.pop hplace fun cor wait heq => ?_
  rw [heq] at hkey
  cases hkey

variable [DecidableEq ι] [DecidableEq ε]

theorem Kept.runTask {task : Option (HookTask ι ε)} {tempTasks : List (Option (HookTask ι ε))}
    (h : s.Kept) (htracked : s.Tracked) (hplace : s.place = .draining (task :: tempTasks)) :
    Kept ({ s with place := .draining tempTasks }.runTask task).1 := by
  have hgrouped := htracked.mapped.grouped
  cases task with
  | none => exact h.pop_of_key hplace rfl
  | some task =>
      cases task with
      | callback callback =>
          obtain ⟨cor, wait⟩ := callback
          have hcor := htracked.queued.copies cor wait <| by
            rw [tasks, hplace]
            exact List.mem_cons_self
          have hresume : HookedLoop.resume { s with place := .draining tempTasks } cor =
              { s.goOn cor wait with place := .draining tempTasks } := by
            simp only [HookedLoop.resume, hcor]
            rfl
          change Kept (HookedLoop.resume { s with place := .draining tempTasks } cor)
          rw [hresume]
          refine (h.goOn hgrouped hcor).pop hplace fun c w heq hw => ?_
          cases heq
          cases (Function.update_self ..).symm.trans hw
      | onTimer => exact (h.pop_of_key hplace rfl).of_tasks rfl rfl rfl fun _ hmem => hmem
      | resume cor => exact (h.pop_of_key hplace rfl).resume hgrouped cor
      | other => exact h.pop_of_key hplace rfl

theorem Kept.runTimer (h : s.Kept) (hgrouped : s.epoll.Grouped) (e : ε) (timerTasks : List ε) :
    Kept ({ s with timerTasks := timerTasks }.runTimer e).1 := by
  have hrest : Kept { s with timerTasks := timerTasks } :=
    h.of_tasks rfl rfl rfl fun _ hmem => hmem
  rw [HookedLoop.runTimer]
  cases s.owner e with
  | none => exact hrest
  | some cor => exact hrest.resume hgrouped cor

theorem Kept.step {op : HookOp ι ε} {out : Option (WakeSource ε × ι)} (h : s.Kept)
    (htracked : s.Tracked) (hkeeps : s.KeepsWaits op)
    (hstep : machine.step s op = some (s', out)) : s'.Kept := by
  have hgrouped := htracked.mapped.grouped
  change s.step op = some (s', out) at hstep
  cases op with
  | addTask =>
      cases hstep
      exact h.addTask _
  | addCoroutine cor =>
      cases hstep
      have hadded : Kept { s with
          cors := Function.update s.cors cor
            (if s.cors cor = .created then .submitted else s.cors cor) } := by
        refine h.mono rfl rfl (fun c w hw => ?_) fun _ _ _ hcopied => hcopied
        by_cases heq : c = cor
        · subst heq
          simp only [Function.update_self] at hw
          split_ifs at hw
          exact hw
        · simpa only [Function.update_of_ne heq] using hw
      exact hadded.addTask _
  | advance ms =>
      cases hstep
      exact h.of_tasks rfl rfl rfl fun _ hmem => hmem
  | resume cor =>
      obtain ⟨-, heq⟩ := Option.ite_none_right_eq_some.1 hstep
      cases heq
      exact h.resume hgrouped cor
  | swap =>
      obtain ⟨⟨-, hplace⟩, heq⟩ := Option.ite_none_right_eq_some.1 hstep
      cases heq
      refine h.of_tasks rfl rfl rfl fun task hmem => ?_
      rw [tasks, hplace] at hmem
      exact List.mem_append_left _ hmem
  | runTask =>
      simp only [HookedLoop.step] at hstep
      split at hstep
      · rename_i task tempTasks hplace
        obtain ⟨-, heq⟩ := Option.ite_none_right_eq_some.1 hstep
        have hrun := h.runTask htracked hplace
        rwa [Option.some.inj heq] at hrun
      · cases hstep
  | runTimer =>
      simp only [HookedLoop.step] at hstep
      split at hstep
      · rename_i tempTasks e timerTasks hplace hbatch
        obtain ⟨-, heq⟩ := Option.ite_none_right_eq_some.1 hstep
        have hrun := h.runTimer hgrouped e timerTasks
        rwa [Option.some.inj heq] at hrun
      · cases hstep
  | epollWait events =>
      obtain ⟨⟨-, -, hplace, -⟩, heq⟩ := Option.ite_none_right_eq_some.1 hstep
      cases heq
      refine h.of_tasks rfl rfl rfl fun task hmem => ?_
      rwa [tasks, hplace] at hmem
  | dispatch =>
      simp only [HookedLoop.step] at hstep
      split at hstep
      · rename_i hplace
        cases hstep
        refine h.of_tasks rfl rfl rfl fun task hmem => ?_
        rwa [tasks, hplace] at hmem
      · rename_i bit bits hplace
        cases hstep
        rw [KeepsWaits, hplace] at hkeeps
        exact h.dispatch htracked hplace hkeeps
      · cases hstep
  | readHook fd | acceptHook fd | writeHook fd =>
      rcases Option.map_eq_some_iff.1 hstep with ⟨t, hhook, heq⟩
      cases heq
      exact h.hook hgrouped hkeeps hhook
  | connectHook fd e =>
      rcases Option.map_eq_some_iff.1 hstep with ⟨t, hhook, heq⟩
      cases heq
      exact h.connectHook hgrouped hkeeps hhook
  | newTimerEvent e interval isRepeated resumes =>
      obtain ⟨-, heq⟩ := Option.ite_none_left_eq_some.1 hstep
      cases heq
      exact h.of_tasks rfl rfl rfl fun _ hmem => hmem
  | addTimerEvent e | deleteTimerEvent e =>
      obtain ⟨-, heq⟩ := Option.ite_none_right_eq_some.1 hstep
      cases heq
      exact h.of_tasks rfl rfl rfl fun _ hmem => hmem
  | opened fd =>
      rcases Option.map_eq_some_iff.1 hstep with ⟨epoll, hopened, heq⟩
      cases heq
      exact h.opened hopened
  | close fd =>
      cases hstep
      exact h.close hkeeps
  | deleteEpollEvent fd =>
      cases hstep
      exact h.deleteFromEpoll hkeeps h.synced rfl rfl
  | clear fd =>
      cases hstep
      exact h.deleteFromEpoll hkeeps ⟨h.synced.mirrored, h.synced.registersOpen⟩ rfl rfl
  | finish =>
      rcases Option.bind_eq_some_iff.1 hstep with ⟨cor, -, hbody⟩
      obtain ⟨hcor, heq⟩ := Option.ite_none_right_eq_some.1 hbody
      cases heq
      refine h.mono rfl rfl (fun c w hw => ?_) fun _ _ _ hcopied => hcopied
      have hne : c ≠ cor := by
        rintro rfl
        cases (Function.update_self ..).symm.trans hw
      exact (Function.update_of_ne hne ..).symm.trans hw

end Loop

section Exact

/-- A wait whose descriptor has been taken off the epoll set is lost, unless its callback has been
copied. -/
theorem Kept.settled {fd : ℕ} {events : EpollEvents} {epoll : EpollRun} (hsynced : epoll.Synced)
    (h : Kept { s with epoll := (epoll.deleteFromEpoll ⟨fd, events⟩).1 }) : s.Settled fd := by
  rintro cor wait hwait rfl
  refine (h.held cor wait (cors_of_wait? hwait)).resolve_left fun harmed => ?_
  obtain ⟨mask, hmask, -⟩ := harmed.waits
  cases (EpollRun.registered_deleteFromEpoll hsynced wait.fd events).symm.trans hmask

theorem Kept.of_close {fd : ℕ} (hkept : s.Kept) (h : Kept { s with epoll := s.epoll.close fd }) :
    fd ∉ s.epoll.listenFds ∧ ∀ cor, ∀ wait ∈ (s.cors cor).wait?, wait.fd ≠ fd := by
  refine ⟨(hkept.synced.mirrored_close_iff fd).1 h.synced.mirrored, ?_⟩
  rintro cor wait hwait rfl
  have hopen := hkept.opens cor wait (cors_of_wait? hwait)
  have hopen' := h.opens cor wait (cors_of_wait? hwait)
  simp [EpollRun.close, hopen] at hopen'

variable [DecidableEq ι] [DecidableEq ε]

theorem Kept.free {fd : ℕ} {ev : TriggerEvent} {timer : Option ε} (h : s'.Kept)
    (hhook : s.hook fd ev timer = some s') : s.Free fd ev := by
  rcases Option.bind_eq_some_iff.1 hhook with ⟨cor, -, hbody⟩
  obtain ⟨hcor, heq⟩ := Option.ite_none_right_eq_some.1 hbody
  cases heq
  have hself := Function.update_self cor (HookedCor.waiting ⟨fd, ev, s.waits, timer⟩) s.cors
  refine ⟨?_, ?_⟩
  · have hopen := h.opens cor _ hself
    rwa [EpollRun.toEpoll, EpollRun.openFds_listen] at hopen
  · rintro c w hw ⟨hfd, hev⟩
    have hwait := cors_of_wait? hw
    have hne : c ≠ cor := by
      rintro rfl
      cases hcor.symm.trans hwait
    exact hne (h.unique c w cor _ ((Function.update_of_ne hne ..).trans hwait) hself hfd hev)

theorem Kept.keepsWaits {op : HookOp ι ε} {out : Option (WakeSource ε × ι)} (h : s.Kept)
    (htracked : s.Tracked) (hstep : machine.step s op = some (s', out)) (h' : s'.Kept) :
    s.KeepsWaits op := by
  change s.step op = some (s', out) at hstep
  cases op with
  | readHook fd | acceptHook fd | writeHook fd =>
      rcases Option.map_eq_some_iff.1 hstep with ⟨t, hhook, heq⟩
      cases heq
      exact h'.free hhook
  | connectHook fd e =>
      rcases Option.map_eq_some_iff.1 hstep with ⟨t, hhook, heq⟩
      cases heq
      obtain ⟨-, hbody⟩ := Option.ite_none_left_eq_some.1 hhook
      have hfree := h'.free hbody
      exact hfree
  | close fd =>
      cases hstep
      exact h.of_close h'
  | deleteEpollEvent fd =>
      cases hstep
      exact Kept.settled h.synced h'
  | clear fd =>
      cases hstep
      have hsynced : EpollRun.Synced { s.epoll with
          fdGroup := Function.update s.epoll.fdGroup fd
            (((s.epoll.fdGroup fd).set false .inEvent).set false .outEvent) } :=
        ⟨h.synced.mirrored, h.synced.registersOpen⟩
      exact Kept.settled hsynced h'
  | dispatch =>
      rw [KeepsWaits]
      simp only [HookedLoop.step] at hstep
      split at hstep
      · rename_i hplace
        rw [hplace]
        trivial
      · rename_i bit bits hplace
        cases hstep
        rw [hplace]
        cases bit with
        | timerFd | wakeUpFd | event fd ev => trivial
        | error fd =>
            have hnone : ¬ (s.callbacks fd).errorCallback.isSome = true := by
              rw [htracked.mapped.noError fd]
              exact Bool.false_ne_true
            simp only [HookedLoop.dispatch, if_neg hnone] at h'
            intro cor wait hwait hfd
            have hcopied := Kept.settled (s := { s with place := .dispatching bits }) h.synced h'
              cor wait hwait hfd
            rwa [Copied, tasks, hplace]
      · cases hstep
  | addTask | addCoroutine | advance | resume | swap | runTask | runTimer | epollWait
  | newTimerEvent | addTimerEvent | deleteTimerEvent | opened | finish => trivial

end Exact

end Steps

section Runs

variable [DecidableEq ι] [DecidableEq ε]

/-- In a run that leaves no copy behind, the waits are kept by every step iff no step takes a wait
away. -/
theorem kept_iff_keepsWaits {openFds : Finset ℕ} {clock : ℤ} {events : ε → TimerEvent}
    {ops : List (HookOp ι ε)} {outs : List (Option (WakeSource ε × ι))} {s : HookedLoop ι ε}
    (hleft : machine.Meets LeavesNone (new openFds clock events) ops)
    (hrun : machine.run (new openFds clock events) ops = some (s, outs)) :
    machine.Meets (fun s op => ∀ p ∈ machine.step s op, p.1.Kept) (new openFds clock events) ops ↔
      machine.Meets KeepsWaits (new openFds clock events) ops := by
  have hcongr : machine.Meets (fun s op => s.LeavesNone op ∧ ∀ p ∈ machine.step s op, p.1.Kept)
      (new openFds clock events) ops ↔ machine.Meets (fun s op => s.LeavesNone op ∧ s.KeepsWaits op)
        (new openFds clock events) ops := by
    refine Machine.meets_congr (I := fun s => s.Tracked ∧ s.Kept) (fun s op s' out h hstep => ?_)
      (fun s op s' out h hop hstep => ⟨(h.1.step hop.1 hstep).1, hop.2 _ hstep⟩)
      ⟨tracked_new openFds clock events, kept_new openFds clock events⟩ hrun
    refine and_congr_right fun _ => ⟨fun hkept => ?_, fun hkeeps p hp => ?_⟩
    · exact h.2.keepsWaits h.1 hstep (hkept _ hstep)
    · exact h.2.step h.1 hkeeps hp
  rwa [Machine.meets_and, Machine.meets_and, and_iff_right hleft, and_iff_right hleft] at hcongr

end Runs

/-- Two coroutines wait, and one of them is reported. -/
theorem kept_iff_keepsWaits_twoWaits :
    let start : HookedLoop (Fin 2) (Fin 1) := new {5, 6} 0 fun _ => ⟨0, 0, false, false, true⟩
    let ops : List (HookOp (Fin 2) (Fin 1)) :=
      [.resume 0, .readHook 5, .resume 1, .writeHook 6, .swap,
        .epollWait [.fd 5 ⟨true, false⟩ true], .dispatch, .dispatch]
    (machine.run start ops).isSome = true ∧
      machine.Meets (fun s op => ∀ p ∈ machine.step s op, p.1.Kept) start ops := by
  intro start ops
  have hsome : (machine.run start ops).isSome = true := by decide +kernel
  obtain ⟨⟨s, outs⟩, hrun⟩ := Option.isSome_iff_exists.1 hsome
  exact ⟨hsome, (kept_iff_keepsWaits (by decide +kernel) hrun).2 (by decide +kernel)⟩

end HookedLoop

end Rocket
