import Rocket.Net.IOThread
import Rocket.Net.Tcp.Read
import Rocket.Net.Tcp.Write

/-!
# The loops of a connection

`MainServerLoopCorFunc` goes round until the connection is stopped, and in each round
`onRead` and `onWrite` go round until they have a reason to leave. Here each pass of these
loops is a step of its own, so that a run shows how they go on. A failed `read` or `write`
is no reason to leave, and the outer loop tests `m_stop` but not the state: after
`shutdown` it goes round without reading or writing for ever.

The steps of `IOThread` are runs of the ones here (`exists_run_of_serve`).
-/

namespace Rocket

open Foundation

/-- Where a coroutine is: before the test of the outer loop; before one of the three calls of
a round; in the loop of `onRead` or of `onWrite`; and returned. -/
inductive ConnectionPlace where
  | test
  | onRead
  | reading
  | excute
  | onWrite
  | writing
  | returned
  deriving DecidableEq, Repr

/-- A connection with its coroutine. -/
structure ConnectionLoop where
  connection : TcpConnection
  place : ConnectionPlace := .test

/-- What happens next: the coroutine goes on, or somebody calls `shutdown`. -/
inductive ConnectionOp where
  | test
  | onRead
  | read (r : Hooked ReadResult)
  | excute (fuel : ℕ)
  | onWrite
  | noData
  | write (r : Hooked WriteResult)
  | shutdown
  deriving DecidableEq, Repr

/-- A round of the outer loop is entered in a state; a pass of the loop of `onRead` or
`onWrite` moves bytes and goes round again, or leaves; and all other steps. -/
inductive ConnectionOutput where
  | entered (state : TcpState)
  | read (moved : ℕ) (again : Bool)
  | write (moved : ℕ) (again : Bool)
  | silent
  deriving DecidableEq, Repr

namespace TcpConnection

/-- `TcpConnection::shutdown`. What `::shutdown` does to the socket shows in the results of the
later calls. -/
def shutdown (c : TcpConnection) : TcpConnection :=
  if c.state = .closed ∨ c.state = .notConnected then c else { c with state := .halfClosing }

/-- A pass of the loop of `onRead`. It leaves with `is_close`. -/
def readPass (c : TcpConnection) (r : Hooked ReadResult) :
    Pass TcpConnection (TcpConnection × Bool) :=
  match growInBuffer c.inBuffer with
  | none => .undefined
  | some b =>
      match r.result with
      | .bytes bs =>
          if bs = [] ∨ (bs.length : ℤ) > b.writeAble then .undefined
          else
            match b.receive bs with
            | none => .undefined
            | some b' =>
                let c := { fire { c with inBuffer := b } r.overTime with inBuffer := b' }
                if (bs.length : ℤ) = b.writeAble then .again c else .leave (c, false)
      | .eof => .leave (fire { c with inBuffer := b } r.overTime, true)
      | .eagain => .leave (fire { c with inBuffer := b } r.overTime, false)
      | .error => .again (fire { c with inBuffer := b } r.overTime)

/-- A pass of the loop of `onWrite` that has data to send. -/
def writePass (c : TcpConnection) (r : Hooked WriteResult) : Pass TcpConnection TcpConnection :=
  match readBlock c.outBuffer.buffer c.outBuffer.readIndex c.outBuffer.readAble with
  | none => .undefined
  | some _ =>
      let writeSize := c.outBuffer.readAble
      let c := fire c r.overTime
      match r.result with
      | .accepted n =>
          if (n : ℤ) > writeSize then .undefined
          else if (n : ℤ) = writeSize then .leave c
          else if c.isOverTime then .leave c
          else .again c
      | .eagain => .leave c
      | .error => if c.isOverTime then .leave c else .again c

/-- The number of bytes that a `write` moves. -/
def moved (r : Hooked WriteResult) : ℕ :=
  match r.result with
  | .accepted n => n
  | _ => 0

section Passes

variable {c c' : TcpConnection}

theorem readPass_again {r : Hooked ReadResult} (h : c.readPass r = .again c') :
    r.result ≠ .error ↔ 0 < (received r).length := by
  unfold readPass at h
  split at h
  · cases h
  · cases hr : r.result with
    | bytes bs =>
        have hne : bs ≠ [] := by
          rintro rfl
          simp [hr] at h
        simp [received, hr, List.length_pos_iff, hne]
    | eof => simp [hr] at h
    | eagain => simp [hr] at h
    | error => simp [received, hr]

theorem readPass_leave {r : Hooked ReadResult} {p : TcpConnection × Bool}
    (h : c.readPass r = .leave p) : r.result ≠ .error := by
  intro hr
  unfold readPass at h
  split at h
  · cases h
  · simp [hr] at h

/-- A pass of writing goes round when the timer has not fired, unless it has failed with
`EAGAIN`. -/
theorem writePass_again {r : Hooked WriteResult} (h : c.writePass r = .again c') :
    r.result ≠ .eagain ∧ ¬ (c.isOverTime || r.overTime) = true := by
  unfold writePass at h
  split at h
  · cases h
  · cases hr : r.result with
    | accepted n =>
        simp only [hr] at h
        split_ifs at h with hmore hall hover
        exact ⟨by simp, hover⟩
    | eagain => simp [hr] at h
    | error =>
        simp only [hr] at h
        split_ifs at h with hover
        exact ⟨by simp, hover⟩

theorem writePass_leave {r : Hooked WriteResult} (h : c.writePass r = .leave c')
    (hdata : c.outBuffer.readAble ≠ 0) (hmoved : moved r = 0) :
    r.result = .eagain ∨ (c.isOverTime || r.overTime) = true := by
  unfold writePass at h
  split at h
  · cases h
  · cases hr : r.result with
    | accepted n =>
        simp only [hr] at h
        simp only [moved, hr] at hmoved
        split_ifs at h with hmore hall hover
        · exact absurd (hall.symm.trans (congrArg Nat.cast hmoved)) hdata
        · exact Or.inr hover
    | eagain => exact Or.inl rfl
    | error =>
        simp only [hr] at h
        split_ifs at h with hover
        exact Or.inr hover

end Passes

end TcpConnection

namespace ConnectionLoop

open TcpConnection

variable {Method Message : Type}

/-- The coroutine goes on, at `place`. -/
def goOn (c : TcpConnection) (place : ConnectionPlace) (out : ConnectionOutput) :
    Option (ConnectionLoop × ConnectionOutput) :=
  some ({ connection := c, place := place }, out)

def step (d : RpcDispatcher Method Message) (l : ConnectionLoop) :
    ConnectionOp → Option (ConnectionLoop × ConnectionOutput)
  | .test =>
      if l.place = .test then
        if l.connection.stop then goOn l.connection .returned .silent
        else goOn l.connection .onRead (.entered l.connection.state)
      else none
  | .onRead =>
      if l.place = .onRead then
        if l.connection.state ≠ .connected then goOn l.connection .excute .silent
        else goOn l.connection .reading .silent
      else none
  | .read r =>
      if l.place = .reading then
        match l.connection.readPass r with
        | .again c => goOn c .reading (.read (received r).length true)
        | .leave (c, isClose) =>
            goOn (if isClose then c.clear else c) .excute (.read (received r).length false)
        | .undefined => none
      else none
  | .excute fuel =>
      if l.place = .excute then
        (l.connection.excute d fuel).bind fun p => goOn p.1 .onWrite .silent
      else none
  | .onWrite =>
      if l.place = .onWrite then
        if l.connection.isOverTime ∨ l.connection.state ≠ .connected then
          goOn l.connection .test .silent
        else goOn l.connection .writing .silent
      else none
  | .noData =>
      if l.place = .writing ∧ l.connection.outBuffer.readAble = 0 then
        goOn l.connection .test (.write 0 false)
      else none
  | .write r =>
      if l.place = .writing ∧ l.connection.outBuffer.readAble ≠ 0 then
        match l.connection.writePass r with
        | .again c => goOn c .writing (.write (moved r) true)
        | .leave c => goOn c .test (.write (moved r) false)
        | .undefined => none
      else none
  | .shutdown => goOn l.connection.shutdown l.place .silent

def machine (d : RpcDispatcher Method Message) :
    Machine ConnectionLoop ConnectionOp ConnectionOutput where
  step := step d

/-- A pass that goes round again has moved a byte. A round that has been entered in another
state than `Connected` is the last one, and the loop comes to its end. -/
structure Progresses (d : RpcDispatcher Method Message) (l : ConnectionLoop)
    (os : List ConnectionOutput) : Prop where
  read : ∀ moved, ConnectionOutput.read moved true ∈ os → 0 < moved
  write : ∀ moved, ConnectionOutput.write moved true ∈ os → 0 < moved
  last : os.Pairwise fun o o' => ∀ state state', o = .entered state → o' = .entered state' →
    state = .connected
  ends : ∀ state, ConnectionOutput.entered state ∈ os → state ≠ .connected →
    ∃ ops l' os', (machine d).run l ops = some (l', os') ∧ l'.place = .returned

/-- A `read` does not fail but with `EAGAIN`; a `write` that accepts no byte has failed with
`EAGAIN`, or the timer has fired; and a round is entered in the state `Connected` only. -/
def KeepsUp (l : ConnectionLoop) : ConnectionOp → Prop
  | .test => l.connection.state = .connected ∨ l.connection.stop = true
  | .read r => r.result ≠ .error
  | .write r => moved r = 0 → r.result = .eagain ∨ (l.connection.isOverTime || r.overTime) = true
  | _ => True

instance (l : ConnectionLoop) : (op : ConnectionOp) → Decidable (l.KeepsUp op)
  | .test => inferInstanceAs (Decidable (_ ∨ _))
  | .read _ => inferInstanceAs (Decidable (_ ≠ _))
  | .write _ => inferInstanceAs (Decidable (_ → _ ∨ _))
  | .onRead | .excute _ | .onWrite | .noData | .shutdown => inferInstanceAs (Decidable True)

def Moving : ConnectionOutput → Prop
  | .entered state => state = .connected
  | .read moved again | .write moved again => again = true → 0 < moved
  | .silent => True

section Step

variable {d : RpcDispatcher Method Message} {l l' : ConnectionLoop} {op : ConnectionOp}
  {o : ConnectionOutput}

/-- What a step does, branch by branch. -/
inductive Stepped (d : RpcDispatcher Method Message) (l : ConnectionLoop) :
    ConnectionOp → ConnectionLoop → ConnectionOutput → Prop
  | returned (hplace : l.place = .test) (hstop : l.connection.stop = true) :
      Stepped d l .test { connection := l.connection, place := .returned } .silent
  | entered (hplace : l.place = .test) (hstop : ¬ l.connection.stop = true) :
      Stepped d l .test { connection := l.connection, place := .onRead }
        (.entered l.connection.state)
  | skipsRead (hplace : l.place = .onRead) (hstate : l.connection.state ≠ .connected) :
      Stepped d l .onRead { connection := l.connection, place := .excute } .silent
  | reads (hplace : l.place = .onRead) (hstate : l.connection.state = .connected) :
      Stepped d l .onRead { connection := l.connection, place := .reading } .silent
  | readAgain {r : Hooked ReadResult} {c : TcpConnection} (hplace : l.place = .reading)
      (hpass : l.connection.readPass r = .again c) :
      Stepped d l (.read r) { connection := c, place := .reading }
        (.read (received r).length true)
  | readLeave {r : Hooked ReadResult} {p : TcpConnection × Bool} (hplace : l.place = .reading)
      (hpass : l.connection.readPass r = .leave p) :
      Stepped d l (.read r) { connection := if p.2 then p.1.clear else p.1, place := .excute }
        (.read (received r).length false)
  | excute {fuel : ℕ} {p : TcpConnection × List (Invocation Method Message)}
      (hplace : l.place = .excute) (hexcute : l.connection.excute d fuel = some p) :
      Stepped d l (.excute fuel) { connection := p.1, place := .onWrite } .silent
  | skipsWrite (hplace : l.place = .onWrite)
      (hskip : l.connection.isOverTime = true ∨ l.connection.state ≠ .connected) :
      Stepped d l .onWrite { connection := l.connection, place := .test } .silent
  | writes (hplace : l.place = .onWrite)
      (hskip : ¬ (l.connection.isOverTime = true ∨ l.connection.state ≠ .connected)) :
      Stepped d l .onWrite { connection := l.connection, place := .writing } .silent
  | noData (hplace : l.place = .writing) :
      Stepped d l .noData { connection := l.connection, place := .test } (.write 0 false)
  | writeAgain {r : Hooked WriteResult} {c : TcpConnection} (hplace : l.place = .writing)
      (hpass : l.connection.writePass r = .again c) :
      Stepped d l (.write r) { connection := c, place := .writing } (.write (moved r) true)
  | writeLeave {r : Hooked WriteResult} {c : TcpConnection} (hplace : l.place = .writing)
      (hdata : l.connection.outBuffer.readAble ≠ 0) (hpass : l.connection.writePass r = .leave c) :
      Stepped d l (.write r) { connection := c, place := .test } (.write (moved r) false)
  | shutdown : Stepped d l .shutdown { connection := l.connection.shutdown, place := l.place }
      .silent

theorem stepped_of_step (hstep : step d l op = some (l', o)) : Stepped d l op l' o := by
  cases op with
  | test =>
      simp only [step, goOn] at hstep
      split_ifs at hstep with hplace hstop <;> cases hstep
      · exact .returned hplace hstop
      · exact .entered hplace hstop
  | onRead =>
      simp only [step, goOn] at hstep
      split_ifs at hstep with hplace hstate <;> cases hstep
      · exact .skipsRead hplace hstate
      · exact .reads hplace (not_not.1 hstate)
  | read r =>
      simp only [step, goOn] at hstep
      split_ifs at hstep with hplace
      cases hpass : l.connection.readPass r with
      | again c =>
          simp only [hpass] at hstep
          cases hstep
          exact .readAgain hplace hpass
      | leave p =>
          simp only [hpass] at hstep
          cases hstep
          exact .readLeave hplace hpass
      | undefined => simp [hpass] at hstep
  | excute fuel =>
      simp only [step, goOn] at hstep
      split_ifs at hstep with hplace
      obtain ⟨p, hexcute, heq⟩ := Option.bind_eq_some_iff.1 hstep
      cases heq
      exact .excute hplace hexcute
  | onWrite =>
      simp only [step, goOn] at hstep
      split_ifs at hstep with hplace hskip <;> cases hstep
      · exact .skipsWrite hplace hskip
      · exact .writes hplace hskip
  | noData =>
      simp only [step, goOn] at hstep
      split_ifs at hstep with hplace
      cases hstep
      exact .noData hplace.1
  | write r =>
      simp only [step, goOn] at hstep
      split_ifs at hstep with hplace
      cases hpass : l.connection.writePass r with
      | again c =>
          simp only [hpass] at hstep
          cases hstep
          exact .writeAgain hplace.1 hpass
      | leave c =>
          simp only [hpass] at hstep
          cases hstep
          exact .writeLeave hplace.1 hplace.2 hpass
      | undefined => simp [hpass] at hstep
  | shutdown =>
      cases hstep
      exact .shutdown

theorem Stepped.moving_iff (h : Stepped d l op l' o) : Moving o ↔ l.KeepsUp op := by
  cases h with
  | returned hplace hstop => exact iff_of_true trivial (Or.inr hstop)
  | entered hplace hstop => exact (or_iff_left hstop).symm
  | readAgain hplace hpass => exact (imp_iff_right rfl).trans (readPass_again hpass).symm
  | readLeave hplace hpass => exact iff_of_true nofun (readPass_leave hpass)
  | writeAgain hplace hpass =>
      obtain ⟨hagain, hover⟩ := writePass_again hpass
      rw [Moving, KeepsUp, Nat.pos_iff_ne_zero]
      exact (imp_iff_right rfl).trans (imp_congr_right fun _ =>
        (iff_false_intro (not_or.2 ⟨hagain, hover⟩)).symm)
  | writeLeave hplace hdata hpass => exact iff_of_true nofun (writePass_leave hpass hdata)
  | noData hplace => exact iff_of_true nofun trivial
  | skipsRead | reads | excute | skipsWrite | writes | shutdown => exact Iff.rfl

end Step

section Spin

variable {d : RpcDispatcher Method Message} {l l' : ConnectionLoop} {op : ConnectionOp}
  {o : ConnectionOutput}

/-- A round has been entered in another state than `Connected`, and the connection is not
stopped. -/
structure Spins (l : ConnectionLoop) : Prop where
  state_ne : l.connection.state ≠ .connected
  stop_eq : l.connection.stop = false
  reading_ne : l.place ≠ .reading
  writing_ne : l.place ≠ .writing
  returned_ne : l.place ≠ .returned

def Still : ConnectionOutput → Prop
  | .entered _ | .silent => True
  | .read _ _ | .write _ _ => False

theorem Stepped.spins {state : TcpState} (h : Stepped d l op l' (.entered state))
    (hstate : state ≠ .connected) : l'.Spins := by
  cases h with
  | entered hplace hstop =>
      exact ⟨hstate, by simpa using hstop, nofun, nofun, nofun⟩

theorem Spins.shutdown (h : l.Spins) :
    Spins { connection := l.connection.shutdown, place := l.place } := by
  have hshutdown : l.connection.shutdown.state ≠ .connected ∧
      l.connection.shutdown.stop = l.connection.stop := by
    rw [TcpConnection.shutdown]
    split_ifs
    · exact ⟨h.state_ne, rfl⟩
    · exact ⟨nofun, rfl⟩
  exact ⟨hshutdown.1, hshutdown.2.trans h.stop_eq, h.reading_ne, h.writing_ne, h.returned_ne⟩

theorem Spins.step (h : l.Spins) (hstep : Stepped d l op l' o) : l'.Spins ∧ Still o := by
  have hgoOn {place : ConnectionPlace} (hreading : place ≠ .reading) (hwriting : place ≠ .writing)
      (hreturned : place ≠ .returned) : Spins { connection := l.connection, place := place } :=
    ⟨h.state_ne, h.stop_eq, hreading, hwriting, hreturned⟩
  cases hstep with
  | returned hplace hstop => simp [h.stop_eq] at hstop
  | entered | skipsRead | skipsWrite =>
      exact ⟨hgoOn (by decide) (by decide) (by decide), trivial⟩
  | reads hplace hstate => exact absurd hstate h.state_ne
  | writes hplace hskip => exact absurd (Or.inr h.state_ne) hskip
  | excute hplace hexcute =>
      obtain ⟨_, _, _, heq⟩ := excute_frame hexcute
      rw [heq]
      exact ⟨⟨h.state_ne, h.stop_eq, nofun, nofun, nofun⟩, trivial⟩
  | readAgain hplace | readLeave hplace => exact absurd hplace h.reading_ne
  | noData hplace | writeAgain hplace | writeLeave hplace => exact absurd hplace h.writing_ne
  | shutdown => exact ⟨h.shutdown, trivial⟩

theorem Spins.run (h : l.Spins) {ops : List ConnectionOp} {os : List ConnectionOutput}
    (hrun : (machine d).run l ops = some (l', os)) : l'.Spins ∧ ∀ o ∈ os, Still o :=
  Machine.run_forall (A := fun _ => True)
    (fun _ _ _ _ hspins _ hstep => hspins.step (stepped_of_step hstep)) (fun _ _ => trivial) h
    hrun

end Spin

section Along

variable {d : RpcDispatcher Method Message} {l : ConnectionLoop} {os : List ConnectionOutput}

theorem progresses_of_moving (h : ∀ o ∈ os, Moving o) : Progresses d l os where
  read moved hmem := h _ hmem rfl
  write moved hmem := h _ hmem rfl
  last := List.pairwise_of_forall_mem_list fun o ho _ _ state _ heq _ => by
    subst heq
    exact h _ ho
  ends state hmem hstate := absurd (h _ hmem) hstate

/-- The loops of a connection progress along a run iff each step that is taken meets the
condition. -/
theorem along_progresses_iff_meets (d : RpcDispatcher Method Message) (l : ConnectionLoop)
    (ops : List ConnectionOp) :
    (machine d).Along (fun l _ os => Progresses d l os) l ops ↔
      (machine d).Meets (fun l op => ((machine d).step l op).isSome = true → l.KeepsUp op) l
        ops := by
  refine Machine.along_iff_meets (I := fun _ _ os => ∀ o ∈ os, Moving o)
    (fun _ _ _ h => progresses_of_moving h) ?_ ?_ (fun _ h => absurd h List.not_mem_nil)
  · intro l _ os op hos
    constructor
    · intro hkeeps l' o hstep
      have ho := (stepped_of_step hstep).moving_iff.2
        (hkeeps (Option.isSome_iff_exists.2 ⟨_, hstep⟩))
      exact progresses_of_moving (List.forall_mem_append.2
        ⟨hos, List.forall_mem_singleton.2 ho⟩)
    · intro hprogresses hsome
      obtain ⟨⟨l', o⟩, hstep⟩ := Option.isSome_iff_exists.1 hsome
      have hprog := hprogresses l' o hstep
      have hmem : o ∈ os ++ [o] := List.mem_concat_self
      have hstepped := stepped_of_step hstep
      refine hstepped.moving_iff.1 ?_
      cases o with
      | entered state =>
          by_contra hstate
          obtain ⟨ops, l'', os', hrun, hreturned⟩ := hprog.ends _ hmem hstate
          exact ((hstepped.spins hstate).run hrun).1.returned_ne hreturned
      | read moved again =>
          rintro rfl
          exact hprog.read moved hmem
      | write moved again =>
          rintro rfl
          exact hprog.write moved hmem
      | silent => trivial
  · intro l _ os op l' o hos hkeeps hstep
    have ho := (stepped_of_step hstep).moving_iff.2
      (hkeeps (Option.isSome_iff_exists.2 ⟨_, hstep⟩))
    exact List.forall_mem_append.2 ⟨hos, List.forall_mem_singleton.2 ho⟩

end Along

/-- The loop of `onRead` goes round when `read` has failed, and the loop of the server when the
connection has been shut down. -/
theorem not_along_progresses_failed :
    ¬ (machine orderDispatcher).Along (fun l _ os => Progresses orderDispatcher l os)
        { connection := addClient 7 } [.test, .onRead, .read { result := .error }] ∧
      ¬ (machine orderDispatcher).Along (fun l _ os => Progresses orderDispatcher l os)
        { connection := addClient 7 }
        [.shutdown, .test, .onRead, .excute 1, .onWrite, .test] := by
  constructor
  · intro h
    have hrun : ((machine orderDispatcher).run { connection := addClient 7 }
        [.test, .onRead, .read { result := .error }]).map Prod.snd =
        some [.entered .connected, .silent, .read 0 true] := by
      decide +kernel
    obtain ⟨l, hprogresses⟩ := h.exists_of_map hrun
    exact absurd (hprogresses.read 0 (by decide)) (lt_irrefl 0)
  · intro h
    have hrun : ((machine orderDispatcher).run { connection := addClient 7 }
        [.shutdown, .test, .onRead, .excute 1, .onWrite, .test]).map Prod.snd =
        some [.silent, .entered .halfClosing, .silent, .silent, .silent,
          .entered .halfClosing] := by
      decide +kernel
    obtain ⟨l, hprogresses⟩ := h.exists_of_map hrun
    have hlast := hprogresses.last
    rw [List.pairwise_cons, List.pairwise_cons] at hlast
    exact absurd (hlast.2.1 (.entered .halfClosing) (by decide) _ _ rfl rfl) (by decide)

section Serve

variable {d : RpcDispatcher Method Message} {c c' : TcpConnection}

theorem onReadLoop_cons (r : Hooked ReadResult) (results : List (Hooked ReadResult)) :
    onReadLoop (r :: results) c =
      match c.readPass r with
      | .again c' => onReadLoop results c'
      | .leave p => some (p.1, p.2, results)
      | .undefined => none := by
  rw [onReadLoop, readPass]
  cases hgrow : growInBuffer c.inBuffer with
  | none => rfl
  | some b =>
      simp only [Option.bind_eq_bind, Option.bind_some]
      cases r.result with
      | bytes bs =>
          simp only
          split_ifs with hfit hfull
          · rfl
          · cases b.receive bs <;> rfl
          · cases b.receive bs <;> rfl
      | eof | eagain | error => rfl

/-- The loop of `onRead`, pass by pass. -/
theorem exists_run_onReadLoop {results : List (Hooked ReadResult)} {isClose : Bool}
    (h : onReadLoop results c = some (c', isClose, [])) :
    ∃ os, (machine d).run { connection := c, place := .reading } (results.map .read) =
      some ({ connection := if isClose then c'.clear else c', place := .excute }, os) := by
  induction results generalizing c with
  | nil => cases h
  | cons r results ih =>
      rw [onReadLoop_cons] at h
      cases hpass : c.readPass r with
      | again c₁ =>
          rw [hpass] at h
          obtain ⟨os, hrun⟩ := ih h
          have hstep : (machine d).step { connection := c, place := .reading } (.read r) =
              goOn c₁ .reading (.read (received r).length true) := by
            simp only [machine, step, if_true, hpass]
          exact ⟨_, Machine.run_cons hstep hrun⟩
      | leave p =>
          rw [hpass] at h
          cases h
          have hstep : (machine d).step { connection := c, place := .reading } (.read r) =
              goOn (if p.2 then p.1.clear else p.1) .excute
                (.read (received r).length false) := by
            simp only [machine, step, if_true, hpass]
          exact ⟨_, Machine.run_cons hstep rfl⟩
      | undefined => simp [hpass] at h

theorem exists_run_onRead {results : List (Hooked ReadResult)}
    (h : c.onRead results = some (c', [])) :
    ∃ os, (machine d).run { connection := c, place := .onRead }
        (.onRead :: results.map .read) = some ({ connection := c', place := .excute }, os) := by
  rw [onRead] at h
  split_ifs at h with hstate
  · cases h
    have hstep : (machine d).step { connection := c, place := .onRead } .onRead =
        goOn c .excute .silent := by
      simp only [machine, step, if_true, if_pos hstate]
    exact ⟨_, Machine.run_cons hstep rfl⟩
  · obtain ⟨⟨c₁, isClose, rest⟩, hloop, heq⟩ := Option.map_eq_some_iff.1 h
    cases heq
    obtain ⟨os, hrun⟩ := exists_run_onReadLoop (d := d) hloop
    have hstep : (machine d).step { connection := c, place := .onRead } .onRead =
        goOn c .reading .silent := by
      simp only [machine, step, if_true, if_neg hstate]
    exact ⟨_, Machine.run_cons hstep hrun⟩

theorem onWriteLoop_cons (hdata : c.outBuffer.readAble ≠ 0) (r : Hooked WriteResult)
    (results : List (Hooked WriteResult)) :
    (onWriteLoop (r :: results) c).map (fun p => (p.1, p.2.2)) =
      match c.writePass r with
      | .again c' => (onWriteLoop results c').map fun p => (p.1, p.2.2)
      | .leave c' => some (c', results)
      | .undefined => none := by
  rw [onWriteLoop, writePass, if_neg hdata]
  cases hread : readBlock c.outBuffer.buffer c.outBuffer.readIndex c.outBuffer.readAble with
  | none => simp only [hread, Option.bind_eq_bind, Option.bind_none, Option.map_none]
  | some buf =>
      simp only [hread, Option.bind_eq_bind, Option.bind_some]
      cases r.result with
      | accepted n =>
          simp only
          split_ifs
          · rfl
          · rfl
          · rfl
          · cases hloop : onWriteLoop results (c.fire r.overTime) <;> simp [hloop]
      | eagain => rfl
      | error =>
          simp only
          split_ifs <;> rfl

/-- The loop of `onWrite`, pass by pass. The last pass may find that there is no data. -/
theorem exists_run_onWriteLoop {results : List (Hooked WriteResult)} {accepted : Bytes}
    (h : onWriteLoop results c = some (c', accepted, [])) :
    ∃ ops os, (machine d).run { connection := c, place := .writing }
      (results.map .write ++ ops) = some ({ connection := c', place := .test }, os) := by
  induction results generalizing c accepted with
  | nil =>
      rw [onWriteLoop] at h
      split_ifs at h with hempty
      cases h
      have hstep : (machine d).step { connection := c', place := .writing } .noData =
          goOn c' .test (.write 0 false) := by
        simp only [machine, step, hempty, and_self, if_true]
      exact ⟨[.noData], _, Machine.run_cons hstep rfl⟩
  | cons r results ih =>
      by_cases hdata : c.outBuffer.readAble = 0
      · rw [onWriteLoop, if_pos hdata] at h
        cases h
      · have hmap := onWriteLoop_cons hdata r results
        rw [h] at hmap
        cases hpass : c.writePass r with
        | again c₁ =>
            rw [hpass] at hmap
            obtain ⟨⟨c₂, accepted', rest⟩, hloop, heq⟩ := Option.map_eq_some_iff.1 hmap.symm
            cases heq
            obtain ⟨ops, os, hrun⟩ := ih hloop
            have hstep : (machine d).step { connection := c, place := .writing } (.write r) =
                goOn c₁ .writing (.write (moved r) true) := by
              simp only [machine, step, hdata, ne_eq, not_false_eq_true, and_self, if_true, hpass]
            exact ⟨ops, _, Machine.run_cons hstep hrun⟩
        | leave c₁ =>
            rw [hpass] at hmap
            cases hmap
            have hstep : (machine d).step { connection := c, place := .writing } (.write r) =
                goOn c' .test (.write (moved r) false) := by
              simp only [machine, step, hdata, ne_eq, not_false_eq_true, and_self, if_true, hpass]
            exact ⟨[], _, Machine.run_cons hstep rfl⟩
        | undefined => simp [hpass] at hmap

theorem exists_run_onWrite {results : List (Hooked WriteResult)} {accepted : Bytes}
    (h : c.onWrite results = some (c', accepted, [])) :
    ∃ ops os, (machine d).run { connection := c, place := .onWrite } (.onWrite :: ops) =
      some ({ connection := c', place := .test }, os) := by
  by_cases hskip : c.isOverTime = true ∨ c.state ≠ .connected
  · have heq : c' = c := by
      rw [onWrite] at h
      split_ifs at h with hover hstate
      · cases h
        rfl
      · cases h
        rfl
      · exact absurd hskip (not_or.2 ⟨hover, hstate⟩)
    subst heq
    have hstep : (machine d).step { connection := c', place := .onWrite } .onWrite =
        goOn c' .test .silent := by
      simp only [machine, step, if_true, if_pos hskip]
    exact ⟨[], _, Machine.run_cons hstep rfl⟩
  · obtain ⟨hover, hstate⟩ := not_or.1 hskip
    rw [onWrite, if_neg hover, if_neg hstate] at h
    obtain ⟨ops, os, hrun⟩ := exists_run_onWriteLoop (d := d) h
    have hstep : (machine d).step { connection := c, place := .onWrite } .onWrite =
        goOn c .writing .silent := by
      simp only [machine, step, if_true, if_neg hskip]
    exact ⟨_, _, Machine.run_cons hstep hrun⟩

def connectionPlace : ServePlace → ConnectionPlace
  | .created => .test
  | .onRead => .onRead
  | .excute => .excute
  | .onWrite => .onWrite
  | .returned => .returned

/-- The coroutine of a client of an IO thread, between two of its calls. -/
def ofClient (client : ServedClient) : ConnectionLoop where
  connection := client.connection
  place := connectionPlace client.place

theorem exists_step_test (d : RpcDispatcher Method Message) (client : ServedClient) :
    ∃ o, (machine d).step { connection := client.connection, place := .test } .test =
      some (ofClient client.test, o) := by
  simp only [machine, step, goOn, ofClient, ServedClient.test]
  cases client.connection.stop with
  | true => exact ⟨_, rfl⟩
  | false => exact ⟨_, rfl⟩

theorem exists_run_of_serve {client client' : ServedClient} {call : ServeStep}
    (h : client.serve d call = some client') :
    ∃ ops os, (machine d).run (ofClient client) ops = some (ofClient client', os) := by
  cases call with
  | enter =>
      rw [ServedClient.serve] at h
      split_ifs at h with hplace
      cases h
      obtain ⟨o, hstep⟩ := exists_step_test d client
      rw [ofClient, hplace]
      exact ⟨[.test], _, Machine.run_cons hstep rfl⟩
  | onRead results =>
      rw [ServedClient.serve] at h
      split_ifs at h with hplace
      obtain ⟨⟨c, rest⟩, hread, h⟩ := Option.bind_eq_some_iff.1 h
      obtain ⟨hrest, heq⟩ := Option.ite_none_right_eq_some.1 h
      cases heq
      cases List.length_eq_zero_iff.1 hrest
      obtain ⟨os, hrun⟩ := exists_run_onRead (d := d) hread
      rw [ofClient, hplace]
      exact ⟨_, os, hrun⟩
  | excute fuel =>
      rw [ServedClient.serve] at h
      split_ifs at h with hplace
      obtain ⟨⟨c, calls⟩, hexcute, h⟩ := Option.bind_eq_some_iff.1 h
      cases h
      have hstep : (machine d).step { connection := client.connection, place := .excute }
          (.excute fuel) = goOn c .onWrite .silent := by
        simp only [machine, step, if_true, hexcute, Option.bind_some]
      rw [ofClient, hplace]
      exact ⟨[.excute fuel], _, Machine.run_cons hstep rfl⟩
  | onWrite results =>
      rw [ServedClient.serve] at h
      split_ifs at h with hplace
      obtain ⟨⟨c, accepted, rest⟩, hwrite, h⟩ := Option.bind_eq_some_iff.1 h
      obtain ⟨hrest, heq⟩ := Option.ite_none_right_eq_some.1 h
      cases heq
      cases List.length_eq_zero_iff.1 hrest
      obtain ⟨ops, os, hrun⟩ := exists_run_onWrite (d := d) hwrite
      obtain ⟨o, hstep⟩ := exists_step_test d { client with connection := c }
      have hclient : ofClient client = { connection := client.connection, place := .onWrite } := by
        rw [ofClient, hplace]
        rfl
      rw [hclient]
      exact ⟨(.onWrite :: ops) ++ [.test], os ++ [o], (Machine.run_append_eq_some_iff ..).2
        ⟨_, os, [o], hrun, Machine.run_cons hstep rfl, rfl⟩⟩

end Serve

end ConnectionLoop

end Rocket
