import Rocket.Net.Epoll

/-!
# m_listen_fds and the epoll set

`m_listen_fds` is changed only by `ADD_TO_EPOLL` and `DELETE_FROM_EPOLL`, the epoll set
also by `close`. The two agree as long as a descriptor that is added is open and one that
is closed has left `m_listen_fds`. The destructor of `TcpClient` closes a socket that is
still listened to, and so does a call that fails after `socket` has once returned another
number than the one of `m_fd_event`. A later socket with the same number is then taken
for registered, and the coroutine that waits for it is not.
-/

namespace Rocket

open Foundation

namespace EpollRun

/-- The step keeps `m_listen_fds` equal to the epoll set, what it asks of `epoll_ctl`
succeeds, and the coroutine that yields next is registered. -/
def KeepsMirror (s : EpollRun) (op : EpollOp) : Prop :=
  ∀ p ∈ machine.step s op, p.1.Mirrored ∧ p.2.Succeeds

/-- A descriptor that is added is open, and one that is closed is not listened to. -/
def ListensOpen (s : EpollRun) : EpollOp → Prop
  | .addEpollEvent event => event.fd ∈ s.openFds
  | .toEpoll fd _ | .resumed fd _ => fd ∈ s.openFds
  | .reopenClient c _ =>
      ∀ client ∈ s.clients c, ∀ fd ∈ client.fd, client.fdEvent ≠ some fd → fd ∉ s.listenFds
  | .destroyClient c => ∀ client ∈ s.clients c, ∀ fd ∈ client.fd, 0 < fd → fd ∉ s.listenFds
  | .deleteEpollEvent _ | .newClient _ _ | .opened _ => True

instance (s : EpollRun) : ∀ op, Decidable (s.ListensOpen op)
  | .addEpollEvent event => inferInstanceAs (Decidable (event.fd ∈ s.openFds))
  | .toEpoll fd _ => inferInstanceAs (Decidable (fd ∈ s.openFds))
  | .resumed fd _ => inferInstanceAs (Decidable (fd ∈ s.openFds))
  | .reopenClient c _ => inferInstanceAs (Decidable (∀ client ∈ s.clients c, ∀ fd ∈ client.fd,
      client.fdEvent ≠ some fd → fd ∉ s.listenFds))
  | .destroyClient c => inferInstanceAs (Decidable (∀ client ∈ s.clients c, ∀ fd ∈ client.fd,
      0 < fd → fd ∉ s.listenFds))
  | .deleteEpollEvent _ => isTrue trivial
  | .newClient _ _ => isTrue trivial
  | .opened _ => isTrue trivial

/-- The kernel closes no descriptor that it keeps in the epoll set. -/
def RegistersOpen (s : EpollRun) : Prop := ∀ fd, (s.registered fd).isSome = true → fd ∈ s.openFds

/-- `m_listen_fds` is the epoll set, which has only open descriptors. -/
structure Synced (s : EpollRun) : Prop where
  mirrored : s.Mirrored
  registersOpen : s.RegistersOpen

variable {s s' : EpollRun}

theorem registersOpen_update {fd : ℕ} {events : Option EpollEvents} {listenFds : Finset ℕ}
    (h : s.RegistersOpen) (hfd : events.isSome = true → fd ∈ s.openFds) :
    RegistersOpen { s with
      registered := Function.update s.registered fd events
      listenFds := listenFds } := by
  intro fd' hreg
  by_cases heq : fd' = fd
  · subst heq
    exact hfd (by simpa using hreg)
  · exact h fd' (by simpa [heq] using hreg)

theorem RegistersOpen.epollCtl (h : s.RegistersOpen) (op : EpollCtl) (event : FdEvent) :
    (s.epollCtl op event).1.RegistersOpen := by
  unfold EpollRun.epollCtl
  by_cases hfd : event.fd ∈ s.openFds
  · cases op <;> simp only [hfd, not_true_eq_false, if_false] <;> split
    all_goals first
      | exact h
      | exact registersOpen_update h fun _ => hfd
  · simpa only [hfd, not_false_eq_true, if_true] using h

theorem RegistersOpen.close (h : s.RegistersOpen) (fd : ℕ) : (s.close fd).RegistersOpen := by
  unfold EpollRun.close
  split
  · intro fd' hreg
    by_cases heq : fd' = fd
    · simp [heq] at hreg
    · exact Finset.mem_erase.2 ⟨heq, h fd' (by simpa [heq] using hreg)⟩
  · exact h

theorem RegistersOpen.addToEpoll (h : s.RegistersOpen) (event : FdEvent) :
    (s.addToEpoll event).1.RegistersOpen :=
  h.epollCtl _ event

theorem RegistersOpen.listen (h : s.RegistersOpen) (fd : ℕ) (ev : TriggerEvent) (b : Bool) :
    (s.listen fd ev b).1.RegistersOpen := by
  have hgroup : RegistersOpen { s with
      fdGroup := Function.update s.fdGroup fd ((s.fdGroup fd).set b ev) } := h
  exact hgroup.addToEpoll _

theorem RegistersOpen.deleteFromEpoll (h : s.RegistersOpen) (event : FdEvent) :
    (s.deleteFromEpoll event).1.RegistersOpen := by
  unfold EpollRun.deleteFromEpoll
  split
  · exact h
  · exact h.epollCtl .del event

theorem RegistersOpen.socket (h : s.RegistersOpen) (fd : Option ℕ)
    (hsocket : s.socket fd = some s') :
    s'.RegistersOpen := by
  cases fd with
  | none =>
      cases hsocket
      exact h
  | some fd =>
      simp only [EpollRun.socket, opened] at hsocket
      split at hsocket
      · cases hsocket
      · cases hsocket
        exact fun fd' hreg => Finset.mem_insert_of_mem (h fd' hreg)

@[simp] theorem registersOpen_setClient (c : ℕ) (client : Option ClientSocket) :
    (s.setClient c client).RegistersOpen ↔ s.RegistersOpen := Iff.rfl

@[simp] theorem mirrored_setClient (c : ℕ) (client : Option ClientSocket) :
    (s.setClient c client).Mirrored ↔ s.Mirrored := Iff.rfl

theorem mirrored_socket_iff (fd : Option ℕ) (hsocket : s.socket fd = some s') :
    s'.Mirrored ↔ s.Mirrored := by
  cases fd with
  | none =>
      cases hsocket
      exact Iff.rfl
  | some fd =>
      simp only [EpollRun.socket, opened] at hsocket
      split at hsocket
      · cases hsocket
      · cases hsocket
        exact Iff.rfl

theorem succeeds_empty : EpollOutput.Succeeds {} := ⟨nofun, nofun⟩

theorem step_addEpollEvent (event : FdEvent) : machine.step s (.addEpollEvent event) =
    some ((s.addToEpoll event).1, { results := [(s.addToEpoll event).2] }) := rfl

theorem step_deleteEpollEvent (event : FdEvent) : machine.step s (.deleteEpollEvent event) =
    some ((s.deleteFromEpoll event).1, { results := (s.deleteFromEpoll event).2 }) := rfl

theorem step_toEpoll (fd : ℕ) (ev : TriggerEvent) : machine.step s (.toEpoll fd ev) =
    some ((s.toEpoll fd ev).1, (s.toEpoll fd ev).2) := rfl

theorem step_resumed (fd : ℕ) (ev : TriggerEvent) : machine.step s (.resumed fd ev) =
    some ((s.listen fd ev false).1, { results := [(s.listen fd ev false).2] }) := rfl

theorem newClient_cases {c : ℕ} {fd : Option ℕ} {out : EpollOutput}
    (hstep : machine.step s (.newClient c fd) = some (s', out)) :
    ∃ u, s.socket fd = some u ∧ s' = u.setClient c (some ⟨fd, fd⟩) ∧ out = {} := by
  obtain ⟨_, hmap⟩ := Option.ite_none_left_eq_some.1 hstep
  rcases Option.map_eq_some_iff.1 hmap with ⟨v, hclient, hv⟩
  rcases Option.map_eq_some_iff.1 hclient with ⟨u, hsocket, hu⟩
  cases hu
  cases hv
  exact ⟨u, hsocket, rfl, rfl⟩

theorem reopenClient_cases {c : ℕ} {fd : Option ℕ} {out : EpollOutput}
    (hstep : machine.step s (.reopenClient c fd) = some (s', out)) :
    ∃ client fdEvent u, s.clients c = some client ∧ client.fdEvent = some fdEvent ∧
      (let deleted := s.deleteFromEpoll ⟨fdEvent, s.fdGroup fdEvent⟩
       (client.fd.elim deleted.1 deleted.1.close).socket fd = some u ∧
         s' = u.setClient c (some { client with fd := fd }) ∧ out = { results := deleted.2 }) := by
  rcases Option.bind_eq_some_iff.1 hstep with ⟨client, hclient, hmap⟩
  rcases Option.map_eq_some_iff.1 hmap with ⟨⟨v, results⟩, hreopen, hv⟩
  rcases Option.bind_eq_some_iff.1 hreopen with ⟨fdEvent, hevent, hrest⟩
  rcases Option.map_eq_some_iff.1 hrest with ⟨u, hsocket, hu⟩
  cases hu
  cases hv
  exact ⟨client, fdEvent, u, hclient, hevent, hsocket, rfl, rfl⟩

theorem destroyClient_cases {c : ℕ} {out : EpollOutput}
    (hstep : machine.step s (.destroyClient c) = some (s', out)) :
    ∃ client, s.clients c = some client ∧ out = {} ∧
      (s' = s.setClient c none ∧ (∀ fd ∈ client.fd, ¬ 0 < fd) ∨
        ∃ fd ∈ client.fd, 0 < fd ∧ s' = (s.close fd).setClient c none) := by
  rcases Option.map_eq_some_iff.1 hstep with ⟨⟨clientFd, fdEvent⟩, hclient, heq⟩
  cases heq
  refine ⟨_, hclient, rfl, ?_⟩
  cases clientFd with
  | none => exact .inl ⟨rfl, nofun⟩
  | some fd =>
      by_cases hfd : 0 < fd
      · exact .inr ⟨fd, rfl, hfd, by simp [EpollRun.destroyClient, hfd]⟩
      · exact .inl ⟨by simp [EpollRun.destroyClient, hfd], fun _ hmem => by
          cases hmem
          exact hfd⟩

/-- The kernel keeps to open descriptors, whatever the loop does. -/
theorem RegistersOpen.step {op : EpollOp} {out : EpollOutput} (h : s.RegistersOpen)
    (hstep : machine.step s op = some (s', out)) : s'.RegistersOpen := by
  cases op with
  | addEpollEvent event =>
      cases hstep
      exact h.addToEpoll event
  | deleteEpollEvent event =>
      cases hstep
      exact h.deleteFromEpoll event
  | toEpoll fd ev =>
      cases hstep
      exact h.listen fd ev true
  | resumed fd ev =>
      cases hstep
      exact h.listen fd ev false
  | newClient c fd =>
      obtain ⟨u, hsocket, rfl, _⟩ := newClient_cases hstep
      exact (registersOpen_setClient c _).2 (h.socket fd hsocket)
  | reopenClient c fd =>
      rcases reopenClient_cases hstep with ⟨client, fdEvent, u, _, _, hsocket, rfl, _⟩
      have hdelete := h.deleteFromEpoll ⟨fdEvent, s.fdGroup fdEvent⟩
      have hclosed : RegistersOpen (client.fd.elim
          (s.deleteFromEpoll ⟨fdEvent, s.fdGroup fdEvent⟩).1
          (s.deleteFromEpoll ⟨fdEvent, s.fdGroup fdEvent⟩).1.close) := by
        cases client.fd with
        | none => exact hdelete
        | some fd' => exact hdelete.close fd'
      exact (registersOpen_setClient c _).2 (hclosed.socket fd hsocket)
  | destroyClient c =>
      rcases destroyClient_cases hstep with ⟨client, _, _, ⟨rfl, _⟩ | ⟨fd, _, _, rfl⟩⟩
      · exact h
      · exact h.close fd
  | opened fd =>
      rcases Option.map_eq_some_iff.1 hstep with ⟨u, hopened, heq⟩
      cases heq
      exact h.socket (some fd) hopened

theorem mirrored_update {fd : ℕ} {events : Option EpollEvents} {listenFds : Finset ℕ}
    (h : s.Mirrored) (hself : fd ∈ listenFds ↔ events.isSome = true)
    (hother : ∀ fd', fd' ≠ fd → (fd' ∈ listenFds ↔ fd' ∈ s.listenFds)) :
    Mirrored { s with
      registered := Function.update s.registered fd events
      listenFds := listenFds } := by
  intro fd'
  by_cases heq : fd' = fd
  · subst heq
    simpa using hself
  · simpa [heq, hother fd' heq] using h fd'

namespace Synced

theorem registered_eq_none {fd : ℕ} (h : s.Synced) (hfd : fd ∉ s.openFds) :
    s.registered fd = none := by
  by_contra hne
  exact hfd (h.registersOpen fd (Option.isSome_iff_ne_none.2 hne))

theorem notMem_listenFds {fd : ℕ} (h : s.Synced) (hfd : fd ∉ s.openFds) : fd ∉ s.listenFds := by
  rw [h.mirrored, h.registered_eq_none hfd]
  exact Bool.false_ne_true

theorem addToEpoll_of_mem (h : s.Synced) (event : FdEvent) (hfd : event.fd ∈ s.openFds) :
    s.addToEpoll event =
      ({ s with
          registered := Function.update s.registered event.fd (some event.listenEvents)
          listenFds := insert event.fd s.listenFds }, true) := by
  by_cases hmem : event.fd ∈ s.listenFds
  · have hreg := (h.mirrored event.fd).1 hmem
    simp [addToEpoll, epollCtl, hfd, hmem, hreg]
  · have hreg : ¬ (s.registered event.fd).isSome = true := fun hreg =>
      hmem ((h.mirrored event.fd).2 hreg)
    simp [addToEpoll, epollCtl, hfd, hmem, hreg]

/-- `ADD_TO_EPOLL` succeeds and keeps the mirror iff the descriptor is open. -/
theorem addToEpoll_iff (h : s.Synced) (event : FdEvent) :
    (s.addToEpoll event).1.Mirrored ∧ (s.addToEpoll event).2 = true ↔ event.fd ∈ s.openFds := by
  constructor
  · rintro ⟨_, hadd⟩
    by_contra hfd
    simp [addToEpoll, epollCtl, hfd] at hadd
  · intro hfd
    rw [h.addToEpoll_of_mem event hfd]
    refine ⟨mirrored_update h.mirrored (by simp) fun fd' hne => ?_, rfl⟩
    rw [Finset.mem_insert, or_iff_right hne]

theorem listen_iff (h : s.Synced) (fd : ℕ) (ev : TriggerEvent) (b : Bool) :
    (s.listen fd ev b).1.Mirrored ∧ (s.listen fd ev b).2 = true ↔ fd ∈ s.openFds := by
  have hgroup : Synced { s with
      fdGroup := Function.update s.fdGroup fd ((s.fdGroup fd).set b ev) } :=
    ⟨h.mirrored, h.registersOpen⟩
  exact hgroup.addToEpoll_iff ⟨fd, (s.fdGroup fd).set b ev⟩

theorem registered_listen {fd : ℕ} (h : s.Synced) (hfd : fd ∈ s.openFds) (ev : TriggerEvent)
    (b : Bool) : (s.listen fd ev b).1.registered fd = some ((s.fdGroup fd).set b ev) := by
  have hgroup : Synced { s with
      fdGroup := Function.update s.fdGroup fd ((s.fdGroup fd).set b ev) } :=
    ⟨h.mirrored, h.registersOpen⟩
  have hadd := hgroup.addToEpoll_of_mem ⟨fd, (s.fdGroup fd).set b ev⟩ hfd
  rw [listen, hadd]
  exact Function.update_self ..

theorem deleteFromEpoll_of_mem {event : FdEvent} (h : s.Synced) (hmem : event.fd ∈ s.listenFds) :
    s.deleteFromEpoll event =
      ({ s with
          registered := Function.update s.registered event.fd none
          listenFds := s.listenFds.erase event.fd }, [true]) := by
  have hreg := (h.mirrored event.fd).1 hmem
  simp [EpollRun.deleteFromEpoll, epollCtl, hmem, hreg, h.registersOpen event.fd hreg]

/-- `DELETE_FROM_EPOLL` takes the descriptor off the mirror, and what it asks for succeeds. -/
theorem deleteFromEpoll (h : s.Synced) (event : FdEvent) :
    (s.deleteFromEpoll event).1.Synced ∧
      (s.deleteFromEpoll event).1.listenFds = s.listenFds.erase event.fd ∧
      ∀ rt ∈ (s.deleteFromEpoll event).2, rt = true := by
  refine ⟨⟨?_, h.registersOpen.deleteFromEpoll event⟩, ?_⟩
  · by_cases hmem : event.fd ∈ s.listenFds
    · rw [h.deleteFromEpoll_of_mem hmem]
      refine mirrored_update h.mirrored (by simp) fun fd' hne => ?_
      rw [Finset.mem_erase, and_iff_right hne]
    · simpa [EpollRun.deleteFromEpoll, hmem] using h.mirrored
  · by_cases hmem : event.fd ∈ s.listenFds
    · rw [h.deleteFromEpoll_of_mem hmem]
      exact ⟨rfl, fun rt hrt => List.mem_singleton.1 hrt⟩
    · simp [EpollRun.deleteFromEpoll, hmem]

/-- Closing a descriptor keeps the mirror iff the loop does not listen to it. -/
theorem mirrored_close_iff (h : s.Synced) (fd : ℕ) : (s.close fd).Mirrored ↔ fd ∉ s.listenFds := by
  by_cases hfd : fd ∈ s.openFds
  · simp only [EpollRun.close, hfd, if_true]
    constructor
    · intro hclose
      simpa using (hclose fd).not
    · intro hmem fd'
      by_cases heq : fd' = fd
      · subst heq
        simpa using hmem
      · simpa [heq] using h.mirrored fd'
  · simp only [EpollRun.close, hfd, if_false, h.notMem_listenFds hfd, not_false_eq_true, iff_true]
    exact h.mirrored

theorem toEpoll_iff (h : s.Synced) (fd : ℕ) (ev : TriggerEvent) :
    (s.toEpoll fd ev).1.Mirrored ∧ (s.toEpoll fd ev).2.Succeeds ↔ fd ∈ s.openFds := by
  rw [← h.listen_iff fd ev true]
  constructor
  · rintro ⟨hmirrored, hresults, _⟩
    exact ⟨hmirrored, hresults _ List.mem_cons_self⟩
  · rintro ⟨hmirrored, hadd⟩
    have hfd := (h.listen_iff fd ev true).1 ⟨hmirrored, hadd⟩
    refine ⟨hmirrored, by simpa [toEpoll] using hadd, ?_⟩
    simp [toEpoll, h.registered_listen hfd ev true]

/-- A client that opens a new socket closes the old one, after `m_fd_event` has been taken
off the mirror. -/
theorem reopenClient_iff {c : ℕ} {fd : Option ℕ} {out : EpollOutput} (h : s.Synced)
    (hstep : machine.step s (.reopenClient c fd) = some (s', out)) :
    s'.Mirrored ∧ out.Succeeds ↔ s.ListensOpen (.reopenClient c fd) := by
  rcases reopenClient_cases hstep with ⟨client, fdEvent, u, hclient, hevent, hsocket, rfl, rfl⟩
  obtain ⟨hdelete, hlisten, hresults⟩ := h.deleteFromEpoll ⟨fdEvent, s.fdGroup fdEvent⟩
  have hsucceeds : EpollOutput.Succeeds
      { results := (s.deleteFromEpoll ⟨fdEvent, s.fdGroup fdEvent⟩).2 } := ⟨hresults, nofun⟩
  rw [and_iff_left hsucceeds, mirrored_setClient, mirrored_socket_iff fd hsocket]
  obtain ⟨clientFd, clientEvent⟩ := client
  simp only [ListensOpen, hclient, Option.mem_def, Option.some.injEq, forall_eq']
  cases clientFd with
  | none => simpa using hdelete.mirrored
  | some fd' =>
      rw [Option.elim_some, hdelete.mirrored_close_iff, hlisten]
      simp only at hevent
      simp [hevent, eq_comm]

theorem destroyClient_iff {c : ℕ} {out : EpollOutput} (h : s.Synced)
    (hstep : machine.step s (.destroyClient c) = some (s', out)) :
    s'.Mirrored ∧ out.Succeeds ↔ s.ListensOpen (.destroyClient c) := by
  rcases destroyClient_cases hstep with ⟨client, hclient, rfl, hclose⟩
  rcases hclose with ⟨rfl, hfd⟩ | ⟨fd, hfd, hpos, rfl⟩
  · refine iff_of_true ⟨h.mirrored, succeeds_empty⟩ fun client' hclient' fd hmem hpos => ?_
    cases hclient.symm.trans hclient'
    exact absurd hpos (hfd fd hmem)
  · rw [and_iff_left succeeds_empty, mirrored_setClient, h.mirrored_close_iff]
    simp only [ListensOpen, hclient, Option.mem_def, Option.some.injEq, forall_eq',
      Option.mem_def.1 hfd, hpos, true_imp_iff]

/-- A step keeps the mirror iff it adds an open descriptor, or closes one that the loop does
not listen to. -/
theorem keepsMirror_iff {op : EpollOp} {out : EpollOutput} (h : s.Synced)
    (hstep : machine.step s op = some (s', out)) : s.KeepsMirror op ↔ s.ListensOpen op := by
  have hkeeps : s.KeepsMirror op ↔ s'.Mirrored ∧ out.Succeeds := by
    simp [KeepsMirror, hstep]
  rw [hkeeps]
  cases op with
  | addEpollEvent event =>
      rw [step_addEpollEvent] at hstep
      obtain ⟨rfl, rfl⟩ := Prod.mk.inj (Option.some.inj hstep)
      simpa [ListensOpen, EpollOutput.Succeeds] using h.addToEpoll_iff event
  | deleteEpollEvent event =>
      rw [step_deleteEpollEvent] at hstep
      obtain ⟨rfl, rfl⟩ := Prod.mk.inj (Option.some.inj hstep)
      obtain ⟨hdelete, _, hresults⟩ := h.deleteFromEpoll event
      exact iff_of_true ⟨hdelete.mirrored, hresults, nofun⟩ trivial
  | toEpoll fd ev =>
      rw [step_toEpoll] at hstep
      obtain ⟨rfl, rfl⟩ := Prod.mk.inj (Option.some.inj hstep)
      exact h.toEpoll_iff fd ev
  | resumed fd ev =>
      rw [step_resumed] at hstep
      obtain ⟨rfl, rfl⟩ := Prod.mk.inj (Option.some.inj hstep)
      simpa [ListensOpen, EpollOutput.Succeeds] using h.listen_iff fd ev false
  | newClient c fd =>
      obtain ⟨u, hsocket, rfl, rfl⟩ := newClient_cases hstep
      have hu := (mirrored_socket_iff fd hsocket).2 h.mirrored
      exact iff_of_true ⟨hu, succeeds_empty⟩ trivial
  | reopenClient c fd => exact h.reopenClient_iff hstep
  | destroyClient c => exact h.destroyClient_iff hstep
  | opened fd =>
      rcases Option.map_eq_some_iff.1 hstep with ⟨u, hopened, heq⟩
      cases heq
      have hu := (mirrored_socket_iff (some fd) hopened).2 h.mirrored
      exact iff_of_true ⟨hu, succeeds_empty⟩ trivial

end Synced

theorem synced_start (openFds : Finset ℕ) : Synced { openFds := openFds } :=
  ⟨fun _ => by simp, nofun⟩

/-- In a run from a fresh event loop, `m_listen_fds` is the epoll set after every step, the
operations succeed and the coroutines that yield are registered, iff every descriptor that
is added is open and every one that is closed is not listened to. -/
theorem keepsMirror_iff_listensOpen {openFds : Finset ℕ} {ops : List EpollOp}
    {outs : List EpollOutput} (hrun : machine.run { openFds := openFds } ops = some (s, outs)) :
    machine.Meets KeepsMirror { openFds := openFds } ops ↔
      machine.Meets ListensOpen { openFds := openFds } ops := by
  refine Machine.meets_congr (I := Synced) (fun u op u' out hu hstep => hu.keepsMirror_iff hstep)
    (fun u op u' out hu hkeeps hstep => ⟨?_, hu.registersOpen.step hstep⟩)
    (synced_start openFds) hrun
  exact (hkeeps (u', out) hstep).1

/-- A client that connects, fails, opens a new socket with the old number and connects
again. -/
theorem keepsMirror_iff_listensOpen_reopened :
    machine.Meets KeepsMirror { openFds := {0, 1, 2, 3, 4} } [.newClient 0 (some 5),
      .toEpoll 5 .outEvent, .resumed 5 .outEvent, .reopenClient 0 (some 5),
      .toEpoll 5 .outEvent] := by
  have hok : machine.Meets ListensOpen { openFds := {0, 1, 2, 3, 4} } [.newClient 0 (some 5),
      .toEpoll 5 .outEvent, .resumed 5 .outEvent, .reopenClient 0 (some 5),
      .toEpoll 5 .outEvent] := by decide +kernel
  have hrun : (machine.run { openFds := {0, 1, 2, 3, 4} } [.newClient 0 (some 5),
      .toEpoll 5 .outEvent, .resumed 5 .outEvent, .reopenClient 0 (some 5),
      .toEpoll 5 .outEvent]).isSome = true := by decide +kernel
  rcases Option.isSome_iff_exists.1 hrun with ⟨⟨t, outs⟩, hrun⟩
  exact (keepsMirror_iff_listensOpen hrun).2 hok

/-- A client that has waited for its connection is destroyed, and the next one gets the same
descriptor: it yields without being registered. -/
theorem not_mirrored_reused : ∃ s outs,
    machine.run { openFds := {0, 1, 2, 3, 4} } [.newClient 0 (some 5), .toEpoll 5 .outEvent,
      .resumed 5 .outEvent, .destroyClient 0, .newClient 1 (some 5), .toEpoll 5 .outEvent] =
      some (s, outs) ∧
    outs.getLast? = some { results := [false], waits := some false } ∧
    5 ∈ s.listenFds ∧ s.registered 5 = none ∧ ¬ s.Mirrored := by
  have hrun : (machine.run { openFds := {0, 1, 2, 3, 4} } [.newClient 0 (some 5),
      .toEpoll 5 .outEvent, .resumed 5 .outEvent, .destroyClient 0, .newClient 1 (some 5),
      .toEpoll 5 .outEvent]).map (fun r => (r.2.getLast?, r.1.listenFds, r.1.registered 5)) =
      some (some { results := [false], waits := some false }, {5}, none) := by decide +kernel
  rcases Option.map_eq_some_iff.1 hrun with ⟨⟨s, outs⟩, hrun, heq⟩
  obtain ⟨hlast, heq⟩ := Prod.mk.inj heq
  obtain ⟨hlisten, hreg⟩ := Prod.mk.inj heq
  dsimp only at hlisten hreg
  have hmem : 5 ∈ s.listenFds := by simp [hlisten]
  refine ⟨s, outs, hrun, hlast, hmem, hreg, fun hmirrored => ?_⟩
  have hsome := (hmirrored 5).1 hmem
  rw [hreg] at hsome
  exact Bool.false_ne_true hsome

end EpollRun

end Rocket
