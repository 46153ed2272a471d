import Rocket.Net.Tcp.CallTimer
import Rocket.Net.Tcp.ClientCall

/-!
# The event that a client call leaves behind

`sendAndRecvTinyPb` deletes its timer event, or has been resumed by it, on every
way out but one: when a read returns 0, the peer has closed, and the code behind
`err_deal` leaves the event in the timer. Ten seconds later its callback is run
on a frame that is gone.

That the timer agrees with what the call has left in it (`Agrees`), is so at the end of
every call, whatever the timer has done while the call was suspended (`Idle.agrees`).
-/

namespace Rocket

open Foundation

namespace TcpConnection

variable {c c' : TcpConnection}

theorem ReadPasses.onReadLoop_append {used : List (Hooked ReadResult)} {isClose : Bool}
    (h : ReadPasses c used c' isClose) (more : List (Hooked ReadResult)) :
    onReadLoop (used ++ more) c = some (c', isClose, more) := by
  induction h with
  | @short c r b b' bs hgrow hr hfit hreceive hshort =>
      simp only [List.cons_append, List.nil_append, onReadLoop, hgrow, hr, Option.bind_eq_bind,
        Option.bind_some, if_neg hfit, hreceive, if_neg hshort]
      rfl
  | @eof c r b hgrow hr | @eagain c r b hgrow hr => simp [onReadLoop, hgrow, hr, fire]
  | @full c c' r used b b' bs isClose hgrow hr hfit hreceive hfull hrest ih =>
      simp only [List.cons_append, onReadLoop, hgrow, hr, Option.bind_eq_bind, Option.bind_some,
        if_neg hfit, hreceive, if_pos hfull]
      exact ih
  | @error c c' r used b isClose hgrow hr hrest ih =>
      simp only [List.cons_append, onReadLoop, hgrow, hr, Option.bind_eq_bind, Option.bind_some]
      exact ih

/-- The peer has closed when one of the results is the end of the stream, and the flag is
set when the timer has fired. -/
theorem ReadPasses.flags {used : List (Hooked ReadResult)} {isClose : Bool}
    (h : ReadPasses c used c' isClose) :
    isClose = used.any (·.result = .eof) ∧
      c'.isOverTime = (c.isOverTime || used.any Hooked.overTime) := by
  induction h with
  | @short c r b b' bs hgrow hr hfit hreceive hshort => simp [hr, fire]
  | @eof c r b hgrow hr | @eagain c r b hgrow hr => simp [hr, fire]
  | @full c c' r used b b' bs isClose hgrow hr hfit hreceive hfull hrest ih =>
      obtain ⟨hclose, hover⟩ := ih
      exact ⟨by simp [hclose, hr], by simp [hover, fire, Bool.or_assoc]⟩
  | @error c c' r used b isClose hgrow hr hrest ih =>
      obtain ⟨hclose, hover⟩ := ih
      exact ⟨by simp [hclose, hr], by simp [hover, fire, Bool.or_assoc]⟩

/-- What one call of `onRead` does with the results `used` that it takes. -/
structure Reads (c c' : TcpConnection) (used : List (Hooked ReadResult)) : Prop where
  onRead_append : ∀ more, c.onRead (used ++ more) = some (c', more)
  isOverTime_eq : c'.isOverTime = (c.isOverTime || used.any Hooked.overTime)
  closed_iff : c.state ≠ .closed → (c'.state = .closed ↔ used.any (·.result = .eof) = true)

theorem exists_reads {results rest : List (Hooked ReadResult)}
    (h : c.onRead results = some (c', rest)) :
    ∃ used, results = used ++ rest ∧ Reads c c' used := by
  unfold onRead at h
  split_ifs at h with hstate
  · cases h
    refine ⟨[], rfl, fun more => ?_, by simp, fun hopen => by simpa using hopen⟩
    rw [onRead, if_pos hstate, List.nil_append]
  · rcases Option.map_eq_some_iff.1 h with ⟨⟨c₁, isClose, rest₁⟩, hloop, heq⟩
    obtain ⟨used, rfl, hpasses⟩ := exists_readPasses hloop
    obtain ⟨hclose, hover⟩ := hpasses.flags
    cases heq
    have hopen : c₁.state ≠ .closed := by
      obtain ⟨inBuffer, overTime, rfl, _⟩ := hpasses.frame
      dsimp only
      rw [not_not.1 hstate]
      decide
    refine ⟨used, rfl, fun more => ?_, ?_, fun _ => ?_⟩
    · rw [onRead, if_neg hstate, hpasses.onReadLoop_append more]
      rfl
    · rw [← hover]
      unfold clear
      split_ifs <;> rfl
    · rw [← hclose]
      unfold clear
      split_ifs with hisClose <;> simp [hisClose, hopen]

theorem IsClient.state_excute (hc : c.IsClient) {Method Message : Type}
    {d : RpcDispatcher Method Message} {fuel : ℕ} {calls : List (Invocation Method Message)}
    (h : c.excute d fuel = some (c', calls)) : c'.state = c.state := by
  rw [excute_client_eq hc.connectionType_eq] at h
  rcases Option.map_eq_some_iff.1 h with ⟨_, _, heq⟩
  cases heq
  rfl

end TcpConnection

/-- The results of one script, and behind them those of another one. -/
def Script.andThen (taken more : Script) : Script :=
  { taken with
    connects := taken.connects ++ more.connects
    writes := taken.writes ++ more.writes
    reads := taken.reads ++ more.reads }

/-- In which of the hooked calls, one after the other, the timer fires. -/
def Script.overTimes (script : Script) : List Bool :=
  script.connects.map Hooked.overTime ++ script.writes.map Hooked.overTime ++
    script.reads.map Hooked.overTime

/-- A read of the call returns 0 before the timer of the call has fired. -/
def closesInTime (used : List (Hooked ReadResult)) : Bool :=
  used.any (·.result = .eof) && !used.any Hooked.overTime

namespace ClientCall

open TcpConnection

variable {base : List ℕ} {e : ℕ} {call call' : ClientCall}

theorem fired_append {α : Type} (used rest : List (Hooked α)) :
    fired (used ++ rest) rest = used.any Hooked.overTime := by
  rw [fired, List.length_append, Nat.add_sub_cancel, List.take_left]

/-- The event `e` of the call is in the timer until it fires. -/
structure Pends (base : List ℕ) (e : ℕ) (call : ClientCall) : Prop where
  event_eq : call.event = e
  timerEvents_eq : call.client.timerEvents = if call.isTimeout then base else e :: base
  isOverTime_eq : call.client.connection.isOverTime = call.isTimeout
  timerEventCount_eq : call.client.timerEventCount = e + 1

/-- How a call leaves the timer. -/
structure Leaves (base : List ℕ) (e : ℕ) (leaks : Bool) (client : TcpClient) : Prop where
  timerEvents_eq : client.timerEvents = if leaks then e :: base else base
  timerEventCount_eq : client.timerEventCount = e + 1

theorem Pends.resume (h : call.Pends base e) (he : e ∉ base) {c : TcpConnection} {fired : Bool}
    (hover : c.isOverTime = (call.client.connection.isOverTime || fired)) :
    (call.resume c fired).Pends base e where
  event_eq := h.event_eq
  timerEvents_eq := by
    have hevent := h.event_eq
    have hevents := h.timerEvents_eq
    cases htime : call.isTimeout <;> cases fired <;>
      simp [ClientCall.resume, hevents, hevent, htime, he]
  isOverTime_eq := hover.trans (congrArg (· || fired) h.isOverTime_eq)
  timerEventCount_eq := h.timerEventCount_eq

theorem Pends.erase (h : call.Pends base e) (he : e ∉ base) :
    call.client.timerEvents.erase call.event = base := by
  rw [h.timerEvents_eq, h.event_eq]
  split_ifs
  · exact List.erase_of_not_mem he
  · exact List.erase_cons_head ..

/-- The code behind `err_deal` deletes no event. -/
theorem Pends.errDeal (h : call.Pends base e) (socket : ℤ) :
    Leaves base e (!call.isTimeout) (call.errDeal socket).1 := by
  have hevents := h.timerEvents_eq
  have hcount := h.timerEventCount_eq
  unfold ClientCall.errDeal
  split_ifs with htime
  · exact ⟨by simpa [htime] using hevents, hcount⟩
  · exact ⟨by simpa [htime] using hevents, hcount⟩

/-- When the flag of the connection is set, the timer has fired. -/
theorem Pends.errDeal_overTime (h : call.Pends base e)
    (hover : call.client.connection.isOverTime = true) (socket : ℤ) :
    Leaves base e false (ClientCall.errDeal { call with isTimeout := true } socket).1 := by
  have htime : call.isTimeout = true := h.isOverTime_eq.symm.trans hover
  have hcall : { call with isTimeout := true } = call := by rw [← htime]
  have hleaves := h.errDeal socket
  rw [htime] at hleaves
  rw [hcall]
  exact hleaves

theorem Pends.connectLoop (h : call.Pends base e) (he : e ∉ base)
    {results : List (Hooked ConnectResult)} {exit : ConnectExit}
    (hloop : connectLoop results call = some (call', exit)) :
    call'.Pends base e ∧ (exit = .timeout → call'.isTimeout = true) := by
  induction results generalizing call with
  | nil =>
      rw [ClientCall.connectLoop] at hloop
      split_ifs at hloop
      cases hloop
      exact ⟨h, fun hexit => by cases hexit⟩
  | cons r results ih =>
      rw [ClientCall.connectLoop] at hloop
      split_ifs at hloop
      · cases hloop
        exact ⟨h, fun hexit => by cases hexit⟩
      · have hresume := h.resume he (c := call.client.connection.fire r.overTime) rfl
        cases hr : r.result with
        | success =>
            simp only [hr] at hloop
            cases hloop
            exact ⟨⟨hresume.event_eq, hresume.timerEvents_eq, hresume.isOverTime_eq,
              hresume.timerEventCount_eq⟩, fun hexit => by cases hexit⟩
        | refused =>
            simp only [hr] at hloop
            cases hloop
            refine ⟨hresume, fun hexit => ?_⟩
            split_ifs at hexit with htime
            exact htime
        | failed =>
            simp only [hr] at hloop
            split_ifs at hloop with htime
            · cases hloop
              exact ⟨hresume, fun _ => htime⟩
            · exact ih hresume hloop

/-- The loop that connects takes the results `used`, whatever follows, and `is_timeout` is set if
the timer has fired during one of them. -/
theorem exists_connectLoop_append {results : List (Hooked ConnectResult)} {exit : ConnectExit}
    (hloop : ClientCall.connectLoop results call = some (call', exit)) :
    ∃ used rest, results = used ++ rest ∧
      (∀ more, ClientCall.connectLoop (used ++ more) call = some (call', exit)) ∧
      call'.isTimeout = (call.isTimeout || used.any Hooked.overTime) := by
  induction results generalizing call with
  | nil =>
      rw [ClientCall.connectLoop] at hloop
      split_ifs at hloop with hconnected
      cases hloop
      refine ⟨[], [], rfl, fun more => ?_, by simp⟩
      cases more <;> rw [List.nil_append, ClientCall.connectLoop, if_pos hconnected]
  | cons r results ih =>
      rw [ClientCall.connectLoop] at hloop
      split_ifs at hloop with hconnected
      · cases hloop
        refine ⟨[], r :: results, rfl, fun more => ?_, by simp⟩
        cases more <;> rw [List.nil_append, ClientCall.connectLoop, if_pos hconnected]
      · cases hr : r.result with
        | success | refused =>
            simp only [hr] at hloop
            cases hloop
            refine ⟨[r], results, rfl, fun more => ?_, by simp [ClientCall.resume]⟩
            simp [ClientCall.connectLoop, hconnected, hr]
        | failed =>
            simp only [hr] at hloop
            split_ifs at hloop with htime
            · cases hloop
              refine ⟨[r], results, rfl, fun more => ?_, by simp [ClientCall.resume]⟩
              simp [ClientCall.connectLoop, hconnected, hr, htime]
            · obtain ⟨used, rest, rfl, happend, htimeout⟩ := ih hloop
              refine ⟨r :: used, rest, rfl, fun more => ?_, ?_⟩
              · simp [ClientCall.connectLoop, hconnected, hr, htime, happend more]
              · rw [htimeout]
                simp [ClientCall.resume, Bool.or_assoc]

section Reply

variable {Method Message : Type} {d : RpcDispatcher Method Message} {fuel : ℕ}
  {msgId : Bytes} {socket : ℤ} {s : ClientCall × List (Hooked ReadResult)}

/-- What a call that waits for the reply has behind it: the timer has not fired, and
the connection is open. -/
structure Waiting (base : List ℕ) (e : ℕ) (call : ClientCall) : Prop where
  isClient : call.client.connection.IsClient
  pends : call.Pends base e
  inTime : call.isTimeout = false
  isOpen : call.client.connection.state ≠ .closed

/-- A round that goes on takes results of which none is the end of the stream, and
during none of which the timer has fired. -/
theorem Waiting.again {s' : ClientCall × List (Hooked ReadResult)} (h : s.1.Waiting base e)
    (he : e ∉ base) (hagain : Loop.Again (replyBody d fuel msgId socket) s s') :
    s'.1.Waiting base e ∧ ∃ used, s.2 = used ++ s'.2 ∧
      (∀ more, Loop.Again (replyBody d fuel msgId socket) (s.1, used ++ more) (s'.1, more)) ∧
      used.any (·.result = .eof) = false ∧ used.any Hooked.overTime = false := by
  obtain ⟨hkeeps, hflag⟩ := keeps_of_again h.isClient hagain
  obtain ⟨c, rest, c', calls, hres, hread, hover, hclosed, hexcute, rfl⟩ := replyBody_again hagain
  obtain ⟨used, hused, hreads⟩ := exists_reads hread
  have heof : used.any (·.result = .eof) = false :=
    Bool.eq_false_of_not_eq_true fun heof => hclosed ((hreads.closed_iff h.isOpen).2 heof)
  have hfired : used.any Hooked.overTime = false := by
    have hflags := hreads.isOverTime_eq.symm.trans hover
    exact (Bool.or_eq_false_iff.1 hflags).2
  have hresume := h.pends.resume he hreads.isOverTime_eq
  have hfiredEq : fired s.2 rest = used.any Hooked.overTime := by rw [hused, fired_append]
  refine ⟨⟨hkeeps.connection.isClient,
      ⟨h.pends.event_eq, ?_, ?_, h.pends.timerEventCount_eq⟩, ?_, ?_⟩,
    used, hused, fun more => ?_, heof, hfired⟩
  · rw [hfiredEq]
    exact hresume.timerEvents_eq
  · rw [hfiredEq, hfired]
    exact hflag.trans (Bool.or_eq_false_iff.2 ⟨h.inTime, rfl⟩).symm
  · rw [hfiredEq, hfired]
    exact Bool.or_eq_false_iff.2 ⟨h.inTime, rfl⟩
  · rw [(h.isClient.keeps_onRead hread).isClient.state_excute hexcute]
    exact hclosed
  · unfold Loop.Again replyBody
    simp only [hres, hreads.onRead_append more, fired_append, hfiredEq, hexcute, if_neg hclosed,
      hover, Bool.false_eq_true, if_false]

/-- A round that leaves the loop leaves the event in the timer when the peer has
closed before the timer has fired. -/
theorem Waiting.leave {r : TcpClient × Received} (h : s.1.Waiting base e) (he : e ∉ base)
    (hleave : replyBody d fuel msgId socket s = .leave r) :
    ∃ used rest, s.2 = used ++ rest ∧
      (∀ more, replyBody d fuel msgId socket (s.1, used ++ more) = .leave r) ∧
      Leaves base e (closesInTime used) r.1 := by
  unfold replyBody at hleave
  split at hleave
  · next res c hres =>
      cases hleave
      refine ⟨[], s.2, rfl, fun more => ?_, h.pends.erase he, h.pends.timerEventCount_eq⟩
      simp only [replyBody, hres]
  · next hres =>
      split at hleave
      · cases hleave
      · next c rest hread =>
          obtain ⟨used, hused, hreads⟩ := exists_reads hread
          have hresume := h.pends.resume he hreads.isOverTime_eq
          have hfiredEq : fired s.2 rest = used.any Hooked.overTime := by rw [hused, fired_append]
          have htime : (s.1.resume c (used.any Hooked.overTime)).isTimeout = c.isOverTime :=
            hresume.isOverTime_eq.symm
          have hover : c.isOverTime = used.any Hooked.overTime := by
            rw [hreads.isOverTime_eq, h.pends.isOverTime_eq, h.inTime, Bool.false_or]
          rw [hfiredEq] at hleave
          dsimp only at hleave
          split_ifs at hleave with hflag hclosed
          · cases hleave
            refine ⟨used, rest, hused, fun more => ?_, ?_⟩
            · simp only [replyBody, hres, hreads.onRead_append more, fired_append, if_pos hflag]
            · have hleaks : closesInTime used = false := by
                rw [closesInTime, ← hover, hflag, Bool.not_true, Bool.and_false]
              rw [hleaks]
              exact hresume.errDeal_overTime hflag socket
          · cases hleave
            refine ⟨used, rest, hused, fun more => ?_, ?_⟩
            · simp only [replyBody, hres, hreads.onRead_append more, fired_append, if_neg hflag,
                if_pos hclosed]
            · have hleaves := hresume.errDeal socket
              rw [htime, hover] at hleaves
              rw [closesInTime, (hreads.closed_iff h.isOpen).1 hclosed, Bool.true_and]
              exact hleaves
          · split at hleave <;> cases hleave

theorem Waiting.run {r : TcpClient × Received} {n : ℕ} (h : s.1.Waiting base e) (he : e ∉ base)
    (hrun : Loop.run (replyBody d fuel msgId socket) n s = some r) :
    ∃ used rest, s.2 = used ++ rest ∧
      (∀ more, Loop.run (replyBody d fuel msgId socket) n (s.1, used ++ more) = some r) ∧
      Leaves base e (closesInTime used) r.1 := by
  induction n generalizing s with
  | zero => cases hrun
  | succ n ih =>
      cases hbody : replyBody d fuel msgId socket s with
      | again s' =>
          rw [Loop.run_of_again hbody] at hrun
          obtain ⟨hwaiting, used, hused, hmore, heof, hfired⟩ := h.again he hbody
          obtain ⟨used', rest, hused', hmore', hleaves⟩ := ih hwaiting hrun
          refine ⟨used ++ used', rest, by rw [hused, hused', List.append_assoc], fun more => ?_, ?_⟩
          · rw [List.append_assoc, Loop.run_of_again (hmore _)]
            exact hmore' more
          · have hcloses : closesInTime (used ++ used') = closesInTime used' := by
              rw [closesInTime, List.any_append, List.any_append, heof, hfired]
              rfl
            rw [hcloses]
            exact hleaves
      | leave r' =>
          rw [Loop.run_of_leave hbody] at hrun
          cases hrun
          obtain ⟨used, rest, hused, hmore, hleaves⟩ := h.leave he hbody
          exact ⟨used, rest, hused, fun more => Loop.run_of_leave (hmore more) n, hleaves⟩
      | undefined => simp [Loop.run, hbody] at hrun

/-- What the call takes behind the loop that connects. It leaves its event in the timer only if
the timer has not fired before. -/
theorem Pends.sendAndRecv {call : ClientCall} (h : call.Pends base e) (he : e ∉ base)
    (hclient : call.client.connection.IsClient) {script : Script} {r : TcpClient × Received}
    (hrun : call.sendAndRecv d fuel msgId script = some r) :
    ∃ writes rest reads rest', script.writes = writes ++ rest ∧ script.reads = reads ++ rest' ∧
      (∀ more more', call.sendAndRecv d fuel msgId
        { script with writes := writes ++ more, reads := reads ++ more' } = some r) ∧
      Leaves base e (closesInTime reads) r.1 ∧
      (closesInTime reads = true →
        call.isTimeout = false ∧ writes.any Hooked.overTime = false) := by
  rw [ClientCall.sendAndRecv] at hrun
  split_ifs at hrun with hstate
  · cases hrun
    refine ⟨[], script.writes, [], script.reads, rfl, rfl, fun more more' => ?_,
      ⟨h.erase he, h.timerEventCount_eq⟩, fun hcloses => absurd hcloses Bool.false_ne_true⟩
    rw [ClientCall.sendAndRecv, if_pos hstate]
    rfl
  · have hconnected : call.client.connection.state = .connected := not_not.1 hstate
    rw [Option.bind_eq_bind, Option.bind_eq_some_iff] at hrun
    obtain ⟨⟨c, sent, rest⟩, hwrite, hrun⟩ := hrun
    rcases Option.map_eq_some_iff.1 hrun with ⟨⟨client, received⟩, hexit, heq⟩
    cases heq
    have hset := (hclient.keeps_flags .connected call.client.connection.stop
      call.client.connection.isOverTime).isClient
    obtain ⟨writes, hwrites, happend⟩ := exists_onWrite_append hwrite
    obtain ⟨writes', hwrites', hc, -⟩ := onWrite_spec hwrite
    cases List.append_cancel_right (hwrites'.symm.trans hwrites)
    have hfired : fired script.writes rest = writes.any Hooked.overTime := by
      rw [hwrites, fired_append]
    rw [hfired] at hexit
    have hover : c.isOverTime =
        (call.client.connection.isOverTime || writes.any Hooked.overTime) := by rw [hc]; rfl
    have hresume := h.resume he hover
    have hcontinue : ∀ more reads, call.sendAndRecv d fuel msgId
        { script with writes := writes ++ more, reads := reads } =
        (if c.isOverTime then
            some (ClientCall.errDeal
              { call.resume c (writes.any Hooked.overTime) with isTimeout := true } script.socket)
          else Loop.run (replyBody d fuel msgId script.socket) fuel
            (call.resume c (writes.any Hooked.overTime), reads)).map
          fun r => (r.1, { r.2 with sent := sent }) := by
      intro more reads
      have hfired' : fired (writes ++ more) more = writes.any Hooked.overTime := fired_append ..
      rw [ClientCall.sendAndRecv, if_neg hstate, happend more, Option.bind_eq_bind,
        Option.bind_some, ← hfired']
    split_ifs at hexit with hflag
    · cases hexit
      refine ⟨writes, rest, [], script.reads, hwrites, rfl, fun more more' => ?_,
        hresume.errDeal_overTime hflag script.socket,
        fun hcloses => absurd hcloses Bool.false_ne_true⟩
      rw [hcontinue, if_pos hflag]
      rfl
    · have hinTime : c.isOverTime = false := Bool.eq_false_of_not_eq_true hflag
      have hwaiting : Waiting base e (call.resume c (writes.any Hooked.overTime)) := by
        refine ⟨(hset.keeps_onWrite hwrite).isClient, hresume, ?_, ?_⟩
        · exact hresume.isOverTime_eq.symm.trans hinTime
        · have hopen : c.state = .connected := by
            rw [hc]
            rfl
          exact fun hclosed => by cases hopen.symm.trans hclosed
      obtain ⟨reads, rest', hreads, hmore, hleaves⟩ := hwaiting.run he hexit
      refine ⟨writes, rest, reads, rest', hwrites, hreads, fun more more' => ?_,
        ⟨hleaves.timerEvents_eq, hleaves.timerEventCount_eq⟩, fun _ => ?_⟩
      · rw [hcontinue, if_neg hflag, hmore more']
        rfl
      · rw [hover, h.isOverTime_eq] at hinTime
        exact Bool.or_eq_false_iff.1 hinTime

end Reply

end ClientCall

namespace TcpClient

variable {Method Message : Type} {d : RpcDispatcher Method Message} {fuel : ℕ} {msgId : Bytes}
  {client client' : TcpClient} {script : Script} {received : Received}
  {used : List (Hooked ReadResult)}

/-- The events of a client are numbered in the order of its calls. -/
def Numbered (client : TcpClient) : Prop := ∀ e ∈ client.timerEvents, e < client.timerEventCount

theorem numbered_new (peerAddr : Bytes) (fd : ℤ) : Numbered (new peerAddr fd) :=
  fun _ he => absurd he List.not_mem_nil

/-- A call takes a part of the script, whatever follows it. It leaves its event in the timer when
the reads let the peer close and the timer has not fired before. -/
theorem Idle.leaves (hidle : client.Idle) (hnum : client.Numbered)
    (h : client.sendAndRecvTinyPb d fuel msgId script = some (client', received)) :
    ∃ taken more : Script, script = taken.andThen more ∧
      (∀ more, client.sendAndRecvTinyPb d fuel msgId (taken.andThen more) =
        some (client', received)) ∧
      ClientCall.Leaves client.timerEvents client.timerEventCount (closesInTime taken.reads)
        client' ∧
      (closesInTime taken.reads = true → taken.overTimes.any id = false) := by
  have he : client.timerEventCount ∉ client.timerEvents := fun hmem => (hnum _ hmem).false
  have hstart : client.startCall.Pends client.timerEvents client.timerEventCount :=
    ⟨rfl, rfl, hidle.notOverTime, rfl⟩
  have hruns : client.startCall.Runs := ⟨hidle.isClient, fun _ => hidle.notOverTime⟩
  rcases Option.bind_eq_some_iff.1 h with ⟨⟨call, exit⟩, hloop, hexit⟩
  obtain ⟨hpends, htimeout⟩ := hstart.connectLoop he hloop
  obtain ⟨connects, rest, hused, happend, htime⟩ := ClientCall.exists_connectLoop_append hloop
  have hconnects := hruns.connectLoop hloop
  -- What is taken behind the loop that connects, and how the event is left.
  obtain ⟨writes, rest₁, reads, rest₂, hwrites, hreads, hreturns, hleaves, hinTime⟩ :
      ∃ writes rest₁ reads rest₂, script.writes = writes ++ rest₁ ∧
        script.reads = reads ++ rest₂ ∧
        (∀ more : Script, client.sendAndRecvTinyPb d fuel msgId (Script.andThen
          { script with connects := connects, writes := writes, reads := reads } more) =
            some (client', received)) ∧
        ClientCall.Leaves client.timerEvents client.timerEventCount (closesInTime reads) client' ∧
        (closesInTime reads = true →
          call.isTimeout = false ∧ writes.any Hooked.overTime = false) := by
    cases exit with
    | connected =>
        obtain ⟨writes, rest₁, reads, rest₂, hwrites, hreads, hmore, hleaves, hinTime⟩ :=
          hpends.sendAndRecv he hconnects.runs.isClient hexit
        exact ⟨writes, rest₁, reads, rest₂, hwrites, hreads, fun more =>
          Option.bind_eq_some_iff.2 ⟨(call, .connected), happend _, hmore _ _⟩, hleaves, hinTime⟩
    | timeout =>
        have hleaves := hpends.errDeal script.socket
        rw [htimeout rfl, Option.some.inj hexit] at hleaves
        exact ⟨[], script.writes, [], script.reads, rfl, rfl, fun more =>
          Option.bind_eq_some_iff.2 ⟨(call, .timeout), happend _, hexit⟩, hleaves,
          fun hcloses => absurd hcloses Bool.false_ne_true⟩
    | refused =>
        have hleaves : ClientCall.Leaves client.timerEvents client.timerEventCount false
            (call.connectRefused script).1 := ⟨hpends.erase he, hpends.timerEventCount_eq⟩
        rw [Option.some.inj hexit] at hleaves
        exact ⟨[], script.writes, [], script.reads, rfl, rfl, fun more =>
          Option.bind_eq_some_iff.2 ⟨(call, .refused), happend _, hexit⟩, hleaves,
          fun hcloses => absurd hcloses Bool.false_ne_true⟩
  refine ⟨{ script with connects := connects, writes := writes, reads := reads },
    { script with connects := rest, writes := rest₁, reads := rest₂ }, ?_, hreturns, hleaves,
    fun hcloses => ?_⟩
  · rw [Script.andThen, ← hused, ← hwrites, ← hreads]
  · obtain ⟨hpendsInTime, hwritesInTime⟩ := hinTime hcloses
    have hconnectsInTime : connects.any Hooked.overTime = false :=
      (Bool.or_eq_false_iff.1 (htime.symm.trans hpendsInTime)).2
    have hreadsInTime : reads.any Hooked.overTime = false := by
      simpa using (Bool.and_eq_true_iff.1 hcloses).2
    simp only [Script.overTimes, List.any_append, List.any_map, Function.id_comp,
      hconnectsInTime, hwritesInTime, hreadsInTime, Bool.or_self]

theorem Idle.numbered (hidle : client.Idle) (hnum : client.Numbered)
    (h : client.sendAndRecvTinyPb d fuel msgId script = some (client', received)) :
    client'.Numbered := by
  obtain ⟨taken, _, _, _, ⟨hevents, hcount⟩, _⟩ := hidle.leaves hnum h
  intro e he
  rw [hevents] at he
  rw [hcount]
  split_ifs at he
  · rcases List.mem_cons.1 he with rfl | he
    · exact Nat.lt_succ_self _
    · exact (hnum e he).trans (Nat.lt_succ_self _)
  · exact (hnum e he).trans (Nat.lt_succ_self _)

/-- When a call has returned, the timer agrees with what the call has left in it. The timer has
run on in the hooked calls for which the script is used up, and at the end the call has deleted
its event, unless this has fired or the peer has closed. -/
theorem Idle.agrees (hidle : client.Idle) (hnum : client.Numbered)
    (h : client.sendAndRecvTinyPb d fuel msgId script = some (client', received)) :
    ∃ taken more : Script, script = taken.andThen more ∧
      (∀ more, client.sendAndRecvTinyPb d fuel msgId (taken.andThen more) =
        some (client', received)) ∧
      ∀ s s' : TimerRun ℕ, s.timer.Ordered → s.OneShot client.timerEventCount →
        s.outstanding client.timerEventCount = 0 →
        TimerRun.Suspends client.timerEventCount
          { s with timer := s.timer.addTimerEvent s.clock client.timerEventCount }
          taken.overTimes s' →
        TimerRun.Agrees
          (if taken.overTimes.any id || closesInTime taken.reads then s'
            else { s' with timer := s'.timer.deleteTimerEvent client.timerEventCount })
          client'.timerEvents client.timerEventCount := by
  obtain ⟨taken, more, hscript, hmore, hleaves, hinTime⟩ := hidle.leaves hnum h
  have he : client.timerEventCount ∉ client.timerEvents := fun hmem => (hnum _ hmem).false
  refine ⟨taken, more, hscript, hmore, fun s s' hord hshot hcount hs => ?_⟩
  obtain ⟨hkept, hdeleted⟩ := agrees_of_suspends he hord hshot hcount hs
  rw [hleaves.timerEvents_eq]
  cases hcloses : closesInTime taken.reads with
  | true =>
      rw [hinTime hcloses] at hkept
      rw [Bool.or_true]
      exact hkept
  | false =>
      rw [Bool.or_false, if_neg Bool.false_ne_true]
      by_cases hfired : taken.overTimes.any id = true
      · rw [if_pos hfired] at hkept ⊢
        exact hkept
      · rw [if_neg hfired]
        exact hdeleted

/-- The reads of a call take the results `used`, and would not have got on with fewer. -/
structure Takes (client : TcpClient) (d : RpcDispatcher Method Message) (fuel : ℕ)
    (msgId : Bytes) (script : Script) (used : List (Hooked ReadResult)) : Prop where
  isPrefix : used <+: script.reads
  isSome : (client.sendAndRecvTinyPb d fuel msgId { script with reads := used }).isSome
  minimal : ∀ fewer, fewer <+: used → fewer ≠ used →
    client.sendAndRecvTinyPb d fuel msgId { script with reads := fewer } = none

theorem Takes.leaves (htakes : client.Takes d fuel msgId script used) (hidle : client.Idle)
    (hnum : client.Numbered)
    (h : client.sendAndRecvTinyPb d fuel msgId script = some (client', received)) :
    ClientCall.Leaves client.timerEvents client.timerEventCount (closesInTime used) client' := by
  rcases Option.isSome_iff_exists.1 htakes.isSome with ⟨⟨client₁, received₁⟩, hused⟩
  obtain ⟨taken, rest, hsplit, hmore, hleaves, -⟩ := hidle.leaves hnum hused
  have hreads : used = taken.reads ++ rest.reads := congrArg Script.reads hsplit
  have hscript (reads : List (Hooked ReadResult)) : { script with reads := taken.reads ++ reads } =
      taken.andThen { rest with reads := reads } :=
    congrArg (fun s : Script => { s with reads := taken.reads ++ reads }) hsplit
  have heq : taken.reads = used := by
    by_contra hne
    have hnone := htakes.minimal taken.reads ⟨rest.reads, hreads.symm⟩ hne
    rw [← List.append_nil taken.reads, hscript, hmore] at hnone
    cases hnone
  rw [heq] at hleaves hscript
  rcases htakes.isPrefix with ⟨more, hmoreReads⟩
  have hcall := hmore { rest with reads := more }
  rw [← hscript, hmoreReads, h] at hcall
  cases hcall
  exact hleaves

theorem exists_takes (h : (client.sendAndRecvTinyPb d fuel msgId script).isSome) :
    ∃ used, client.Takes d fuel msgId script used := by
  have hexists : ∃ n, (client.sendAndRecvTinyPb d fuel msgId
      { script with reads := script.reads.take n }).isSome :=
    ⟨script.reads.length, by rwa [List.take_length]⟩
  refine ⟨script.reads.take (Nat.find hexists), List.take_prefix _ _, Nat.find_spec hexists, ?_⟩
  intro fewer hfewer hne
  have hlt : fewer.length < Nat.find hexists := by
    have hlen := hfewer.length_le
    have hlen' : fewer.length ≠ (script.reads.take (Nat.find hexists)).length :=
      fun heq => hne (hfewer.eq_of_length heq)
    rw [List.length_take] at hlen hlen'
    omega
  have htake : fewer = script.reads.take fewer.length :=
    List.prefix_iff_eq_take.1 (hfewer.trans (List.take_prefix _ _))
  have hmin := Nat.find_min hexists hlt
  rwa [← htake, Option.not_isSome_iff_eq_none] at hmin

/-- Once a call has returned, its event is retired exactly when no read has returned 0
before the timer has fired, and the callback does not wait in the batch of the running
`onTimer`. -/
theorem retired_iff_not_closesInTime (hidle : client.Idle) (hnum : client.Numbered)
    (h : client.sendAndRecvTinyPb d fuel msgId script = some (client', received))
    (htakes : client.Takes d fuel msgId script used) {s : TimerRun ℕ}
    (hs : s.Agrees client'.timerEvents client.timerEventCount) :
    s.Retired client.timerEventCount ↔
      closesInTime used = false ∧ ¬ s.Waits client.timerEventCount := by
  have he : client.timerEventCount ∉ client.timerEvents := fun hmem => (hnum _ hmem).false
  have hleaves := htakes.leaves hidle hnum h
  rw [hs.retired_iff, hleaves.timerEvents_eq]
  cases closesInTime used <;> simp [he]

def loadedClient : TcpClient :=
  { new (ascii "127.0.0.1:12345") 7 with
    connection := { TcpConnection.new 7 128 .byClient with
      outBuffer := ⟨0, 27, ({ msgId := [49] } : TinyPBProtocol).packet ++ List.replicate 101 0⟩ } }

theorem loadedClient_idle : loadedClient.Idle where
  isClient := ⟨rfl, by decide +kernel, by decide +kernel, by decide +kernel⟩
  notOverTime := rfl

/-- The connection is made, the request is sent, and `read` returns `read`. -/
def loadedScript (read : Hooked ReadResult) : Script where
  connects := [⟨.success, false⟩]
  writes := [⟨.accepted 27, false⟩]
  reads := [read]
  socket := 8
  sysError := []

def callEvents (_ : ℕ) : TimerEvent := .new 10000 false true 0

def addedTimer : TimerRun ℕ :=
  { TimerRun.new 0 callEvents with timer := (TimerRun.new 0 callEvents).timer.addTimerEvent 0 0 }

theorem addedTimer_agrees :
    addedTimer.Agrees loadedClient.startCall.client.timerEvents loadedClient.startCall.event := by
  have hnew : loadedClient.timerEventCount ∉ loadedClient.timerEvents := List.not_mem_nil
  exact agrees_startCall (s := .new 0 callEvents) hnew (Timer.ordered_new callEvents)
    ⟨rfl, rfl, rfl⟩ rfl

/-- The timer fires while the call waits for the reply. -/
theorem retired_iff_overTime : ∃ s,
    (TimerRun.machine.run addedTimer [.advance 10000, .onTimer, .runTask]).map Prod.fst = some s ∧
      (s.Retired 0 ↔ closesInTime [⟨.eagain, true⟩] = false ∧ ¬ s.Waits 0) := by
  have hrun : (TimerRun.machine.run addedTimer [.advance 10000, .onTimer, .runTask]).map Prod.snd =
      some [.done, .collected [0], .fired 0] := by decide +kernel
  have hcall : (loadedClient.sendAndRecvTinyPb TcpConnection.orderDispatcher 2 [49]
      (loadedScript ⟨.eagain, true⟩)).map (fun p => p.1.timerEvents) = some [] := by decide +kernel
  rcases Option.map_eq_some_iff.1 hrun with ⟨⟨s, outs⟩, hrun, rfl⟩
  rcases Option.map_eq_some_iff.1 hcall with ⟨⟨client', received⟩, hcall, hevents⟩
  have hagrees := addedTimer_agrees.resume (by decide +kernel) (by decide) (by decide) hrun
    loadedClient.connection
  refine ⟨s, by rw [hrun]; rfl, ?_⟩
  refine retired_iff_not_closesInTime loadedClient_idle
    (numbered_new (ascii "127.0.0.1:12345") 7) hcall ⟨List.prefix_refl _, ?_, ?_⟩ ?_
  · decide +kernel
  · intro fewer hfewer hne
    have hnil : fewer = [] := by
      rcases List.prefix_cons_iff.1 hfewer with rfl | ⟨t, rfl, ht⟩
      · rfl
      · rw [List.prefix_nil] at ht
        subst ht
        exact absurd rfl hne
    subst hnil
    exact Option.isNone_iff_eq_none.1 (by decide +kernel)
  · dsimp only at hevents
    rw [hevents]
    exact hagrees

/-- The peer closes. The callback of the call is run ten seconds later. -/
theorem not_retired_peerClosed : ∃ client' received,
    loadedClient.sendAndRecvTinyPb TcpConnection.orderDispatcher 2 [49]
        (loadedScript ⟨.eof, false⟩) = some (client', received) ∧ received.rt = errorPeerClosed ∧
      ∃ s : TimerRun ℕ, s.Agrees client'.timerEvents 0 ∧
        (TimerRun.machine.run s [.advance 10000, .onTimer, .runTask]).map Prod.snd =
          some [.done, .collected [0], .fired 0] ∧ ¬ s.Retired 0 := by
  have hrun : (TimerRun.machine.run addedTimer [.advance 10000, .onTimer, .runTask]).map Prod.snd =
      some [.done, .collected [0], .fired 0] := by decide +kernel
  have hcall : (loadedClient.sendAndRecvTinyPb TcpConnection.orderDispatcher 2 [49]
      (loadedScript ⟨.eof, false⟩)).map (fun p => (p.1.timerEvents, p.2.rt)) =
        some ([0], errorPeerClosed) := by decide +kernel
  rcases Option.map_eq_some_iff.1 hcall with ⟨⟨client', received⟩, hcall, heq⟩
  obtain ⟨hevents, hrt⟩ := Prod.mk.inj heq
  dsimp only at hevents
  refine ⟨client', received, hcall, hrt, addedTimer, ?_, hrun, fun hretired => ?_⟩
  · rw [hevents]
    exact addedTimer_agrees
  · rcases Option.map_eq_some_iff.1 hrun with ⟨⟨s, outs⟩, hrun, rfl⟩
    exact hretired.not_fired _ s _ (by decide) hrun (by decide)

end TcpClient

end Rocket
