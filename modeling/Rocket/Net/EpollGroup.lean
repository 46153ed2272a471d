import Rocket.Net.EpollMirror

/-!
# The epoll set and the FdEvents

The hooked calls change an `FdEvent` of the `FdEventGroup` and add it to the epoll set
again. So the kernel waits for what the `FdEvent` listens to, if it has the descriptor
registered at all. This does not need the loop to know which descriptors are registered,
as `m_listen_fds` should tell it.
-/

namespace Rocket

open Foundation

namespace EpollRun

/-- A descriptor is registered for what its `FdEvent` listens to; it is open, and in
`m_listen_fds`. -/
structure Grouped (s : EpollRun) : Prop where
  listens : ∀ fd mask, s.registered fd = some mask → fd ∈ s.listenFds ∧ mask = s.fdGroup fd
  registersOpen : s.RegistersOpen

variable {s s' : EpollRun} {fd fd' : ℕ} {mask : EpollEvents}

/-- What is registered after a call of `epoll_ctl` that adds or modifies. -/
theorem RegistersOpen.registered_set (h : s.RegistersOpen) (op : EpollCtl) (event : FdEvent)
    (hop : op = .mod ∨ op = .add ∧ s.registered event.fd = none)
    (hreg : (s.epollCtl op event).1.registered fd' = some mask) :
    fd' = event.fd ∧ mask = event.listenEvents ∨
      fd' ≠ event.fd ∧ s.registered fd' = some mask := by
  have hupdate (hset : Function.update s.registered event.fd (some event.listenEvents) fd' =
      some mask) : fd' = event.fd ∧ mask = event.listenEvents ∨
        fd' ≠ event.fd ∧ s.registered fd' = some mask := by
    by_cases heq : fd' = event.fd
    · rw [heq, Function.update_self] at hset
      exact Or.inl ⟨heq, (Option.some.inj hset).symm⟩
    · rw [Function.update_of_ne heq] at hset
      exact Or.inr ⟨heq, hset⟩
  have hsame (hnone : s.registered event.fd = none) (hkeep : s.registered fd' = some mask) :
      fd' = event.fd ∧ mask = event.listenEvents ∨
        fd' ≠ event.fd ∧ s.registered fd' = some mask := by
    refine Or.inr ⟨?_, hkeep⟩
    rintro rfl
    cases hnone.symm.trans hkeep
  by_cases hopen : event.fd ∈ s.openFds
  · rcases hop with rfl | ⟨rfl, hnone⟩
    · cases hmod : s.registered event.fd with
      | none =>
          simp [EpollRun.epollCtl, hopen, hmod] at hreg
          exact hsame hmod hreg
      | some events =>
          simp only [EpollRun.epollCtl, hopen, hmod, not_true_eq_false, if_false,
            Option.isSome_some, if_true] at hreg
          exact hupdate hreg
    · simp only [EpollRun.epollCtl, hopen, hnone, not_true_eq_false, if_false, Option.isSome_none,
        Bool.false_eq_true] at hreg
      exact hupdate hreg
  · simp only [EpollRun.epollCtl, hopen, not_false_eq_true, if_true] at hreg
    refine hsame ?_ hreg
    by_contra hsome
    exact hopen (h event.fd (Option.isSome_iff_ne_none.2 hsome))

/-- What is registered after a call of `epoll_ctl` that deletes. -/
theorem RegistersOpen.registered_del (h : s.RegistersOpen) (event : FdEvent)
    (hreg : (s.epollCtl .del event).1.registered fd' = some mask) :
    fd' ≠ event.fd ∧ s.registered fd' = some mask := by
  by_cases hopen : event.fd ∈ s.openFds
  · cases hdel : s.registered event.fd with
    | none =>
        simp [EpollRun.epollCtl, hopen, hdel] at hreg
        refine ⟨?_, hreg⟩
        rintro rfl
        cases hdel.symm.trans hreg
    | some events =>
        simp only [EpollRun.epollCtl, hopen, hdel, not_true_eq_false, if_false, Option.isSome_some,
          if_true] at hreg
        by_cases heq : fd' = event.fd
        · rw [heq, Function.update_self] at hreg
          cases hreg
        · rw [Function.update_of_ne heq] at hreg
          exact ⟨heq, hreg⟩
  · simp only [EpollRun.epollCtl, hopen, not_false_eq_true, if_true] at hreg
    refine ⟨?_, hreg⟩
    rintro rfl
    exact hopen (h event.fd (by rw [hreg]; rfl))

theorem frame_epollCtl (op : EpollCtl) (event : FdEvent) :
    (s.epollCtl op event).1.openFds = s.openFds ∧
      (s.epollCtl op event).1.listenFds = s.listenFds ∧
      (s.epollCtl op event).1.fdGroup = s.fdGroup := by
  unfold EpollRun.epollCtl
  by_cases hopen : event.fd ∈ s.openFds
  · cases op <;> simp only [hopen, not_true_eq_false, if_false] <;> split <;> exact ⟨rfl, rfl, rfl⟩
  · simp only [hopen, not_false_eq_true, if_true]
    exact ⟨trivial, trivial, trivial⟩

theorem fdGroup_listen (s : EpollRun) (fd : ℕ) (ev : TriggerEvent) (b : Bool) :
    (s.listen fd ev b).1.fdGroup = Function.update s.fdGroup fd ((s.fdGroup fd).set b ev) :=
  (frame_epollCtl
    (s := { s with fdGroup := Function.update s.fdGroup fd ((s.fdGroup fd).set b ev) })
    (if fd ∈ s.listenFds then .mod else .add) ⟨fd, (s.fdGroup fd).set b ev⟩).2.2

theorem fdGroup_deleteFromEpoll (s : EpollRun) (event : FdEvent) :
    (s.deleteFromEpoll event).1.fdGroup = s.fdGroup := by
  unfold EpollRun.deleteFromEpoll
  split_ifs
  · exact (frame_epollCtl .del event).2.2
  · rfl

/-- What the `FdEvent`s listen to then. -/
theorem has_listen (s : EpollRun) (fd fd' : ℕ) (ev ev' : TriggerEvent) (b : Bool) :
    ((s.listen fd ev b).1.fdGroup fd').has ev' =
      if fd' = fd ∧ ev' = ev then b else (s.fdGroup fd').has ev' := by
  rw [fdGroup_listen]
  by_cases hfd : fd' = fd
  · subst hfd
    rw [Function.update_self]
    cases ev <;> cases ev' <;> simp [EpollEvents.has, EpollEvents.set]
  · rw [Function.update_of_ne hfd, if_neg fun h => hfd h.1]

namespace Grouped

/-- Writing to an `FdEvent` and adding it registers its descriptor for no other events. -/
theorem registered_listen {ev : TriggerEvent} {b : Bool} (h : s.Grouped)
    (hreg : (s.listen fd ev b).1.registered fd' = some mask) :
    fd' = fd ∧ mask = (s.fdGroup fd).set b ev ∨ fd' ≠ fd ∧ s.registered fd' = some mask := by
  have hgroup : RegistersOpen { s with
      fdGroup := Function.update s.fdGroup fd ((s.fdGroup fd).set b ev) } := h.registersOpen
  refine hgroup.registered_set (if fd ∈ s.listenFds then .mod else .add)
    ⟨fd, (s.fdGroup fd).set b ev⟩ ?_ hreg
  split_ifs with hmem
  · exact Or.inl rfl
  · refine Or.inr ⟨rfl, ?_⟩
    by_contra hsome
    obtain ⟨mask, hmask⟩ := Option.ne_none_iff_exists'.1 hsome
    exact hmem (h.listens fd mask hmask).1

theorem listen (h : s.Grouped) (fd : ℕ) (ev : TriggerEvent) (b : Bool) :
    (s.listen fd ev b).1.Grouped := by
  refine ⟨fun fd' mask hreg => ?_, h.registersOpen.listen fd ev b⟩
  obtain ⟨_, hlisten, _⟩ := frame_epollCtl
    (s := { s with fdGroup := Function.update s.fdGroup fd ((s.fdGroup fd).set b ev) })
    (if fd ∈ s.listenFds then .mod else .add) ⟨fd, (s.fdGroup fd).set b ev⟩
  have hlistenFds : (s.listen fd ev b).1.listenFds = insert fd s.listenFds :=
    congrArg (insert fd) hlisten
  rw [hlistenFds, fdGroup_listen]
  rcases h.registered_listen hreg with ⟨rfl, rfl⟩ | ⟨hne, hold⟩
  · rw [Function.update_self]
    exact ⟨Finset.mem_insert_self _ _, rfl⟩
  · rw [Function.update_of_ne hne]
    exact ⟨Finset.mem_insert_of_mem (h.listens fd' mask hold).1, (h.listens fd' mask hold).2⟩

/-- `DELETE_FROM_EPOLL` leaves the descriptor unregistered. -/
theorem registered_deleteFromEpoll {event : FdEvent} (h : s.Grouped)
    (hreg : (s.deleteFromEpoll event).1.registered fd' = some mask) :
    fd' ≠ event.fd ∧ s.registered fd' = some mask := by
  rw [EpollRun.deleteFromEpoll] at hreg
  split_ifs at hreg with hmem
  · exact h.registersOpen.registered_del event hreg
  · refine ⟨?_, hreg⟩
    rintro rfl
    exact hmem (h.listens _ mask hreg).1

theorem deleteFromEpoll (h : s.Grouped) (event : FdEvent) :
    (s.deleteFromEpoll event).1.Grouped := by
  refine ⟨fun fd' mask hreg => ?_, h.registersOpen.deleteFromEpoll event⟩
  obtain ⟨hne, hold⟩ := h.registered_deleteFromEpoll hreg
  obtain ⟨hlisten, hmask⟩ := h.listens fd' mask hold
  rw [EpollRun.deleteFromEpoll]
  obtain ⟨_, hlistenFds, hgroup⟩ := frame_epollCtl (s := s) .del event
  split_ifs with hmem
  · refine ⟨Finset.mem_erase.2 ⟨hne, ?_⟩, hmask.trans (congrFun hgroup.symm fd')⟩
    rwa [hlistenFds]
  · exact ⟨hlisten, hmask⟩

theorem registered_close (hreg : (s.close fd).registered fd' = some mask) :
    s.registered fd' = some mask := by
  rw [EpollRun.close] at hreg
  split_ifs at hreg
  · by_cases heq : fd' = fd
    · rw [heq] at hreg
      simp at hreg
    · simpa [heq] using hreg
  · exact hreg

theorem close (h : s.Grouped) (fd : ℕ) : (s.close fd).Grouped := by
  refine ⟨fun fd' mask hreg => ?_, h.registersOpen.close fd⟩
  have hold := h.listens fd' mask (registered_close hreg)
  rw [EpollRun.close]
  split_ifs <;> exact hold

theorem opened (h : s.Grouped) (hopened : s.opened fd = some s') :
    s'.Grouped ∧ s'.registered = s.registered := by
  have hopen := h.registersOpen.socket (some fd) hopened
  rw [EpollRun.opened] at hopened
  split_ifs at hopened
  cases hopened
  exact ⟨⟨h.listens, hopen⟩, rfl⟩

/-- An `FdEvent` that is written to and then deleted. -/
theorem registered_cleared {events : EpollEvents} (h : s.Grouped)
    (hreg : ({ s with fdGroup := Function.update s.fdGroup fd events }.deleteFromEpoll
      ⟨fd, events⟩).1.registered fd' = some mask) : fd' ≠ fd ∧ s.registered fd' = some mask := by
  have hopen : RegistersOpen { s with fdGroup := Function.update s.fdGroup fd events } :=
    h.registersOpen
  rw [EpollRun.deleteFromEpoll] at hreg
  split_ifs at hreg with hmem
  · exact hopen.registered_del ⟨fd, events⟩ hreg
  · refine ⟨?_, hreg⟩
    rintro rfl
    exact hmem (h.listens _ mask hreg).1

theorem cleared (h : s.Grouped) (fd : ℕ) (events : EpollEvents) :
    ({ s with fdGroup := Function.update s.fdGroup fd events }.deleteFromEpoll
      ⟨fd, events⟩).1.Grouped := by
  have hopen : RegistersOpen { s with fdGroup := Function.update s.fdGroup fd events } :=
    h.registersOpen
  refine ⟨fun fd' mask hreg => ?_, hopen.deleteFromEpoll _⟩
  obtain ⟨hne, hold⟩ := h.registered_cleared hreg
  obtain ⟨hlisten, hmask⟩ := h.listens fd' mask hold
  have hmask' : mask = Function.update s.fdGroup fd events fd' := by
    rw [Function.update_of_ne hne, hmask]
  rw [EpollRun.deleteFromEpoll]
  obtain ⟨_, hlistenFds, hgroup⟩ := frame_epollCtl
    (s := { s with fdGroup := Function.update s.fdGroup fd events }) .del ⟨fd, events⟩
  split_ifs with hmem
  · refine ⟨Finset.mem_erase.2 ⟨hne, ?_⟩, hmask'.trans (congrFun hgroup.symm fd')⟩
    rwa [hlistenFds]
  · exact ⟨hlisten, hmask'⟩

end Grouped

theorem grouped_start (openFds : Finset ℕ) : Grouped { openFds := openFds } :=
  ⟨nofun, nofun⟩

end EpollRun

end Rocket
