import Rocket.Common.LogDelivery
import Rocket.Foundation.Parts
import Rocket.Net.TimerFires

/-!
# The timer event of the logger

`Logger::init` makes a repeated timer event whose callback is `syncLoop`, and adds it to the
timer of the event loop. Nobody else calls `syncLoop`. While it runs, the thread of the event
loop is in `onTimer`, and runs no other callback.

The timer and the logger are parts of this machine. So the event fires again and again, and
whenever it does, what has been pushed is handed over to the threads that write.
-/

namespace Rocket

open Foundation Machine

/-- A logger, and the timer that its event has been added to. `syncing` says that the callback
of the event is running. -/
structure LogSync (ε : Type) where
  timer : TimerRun ε
  logger : Logger
  syncing : Bool := false

inductive LogSyncOp (ε : Type) where
  | timer (op : TimerOp ε)
  | log (step : LogStep)
  deriving DecidableEq, Repr

/-- The thread of the event loop calls `onTimer` or a callback. -/
def TimerOp.isLoop {ε : Type} : TimerOp ε → Bool
  | .onTimer | .runTask => true
  | .addTimerEvent _ | .deleteTimerEvent _ | .advance _ => false

/-- The steps that `syncLoop` has still to take, when it has been called. -/
def SyncPlace.toEnd : SyncPlace → ℕ
  | .outside => 4
  | .swapped .rpc _ => 3
  | .between => 2
  | .swapped .app _ => 1

namespace LogSyncOp

variable {ε : Type}

end LogSyncOp

namespace LogSync

variable {ε : Type} [DecidableEq ε]

/-- One step, when `e` is the event of the logger. -/
def step (e : ε) (s : LogSync ε) : LogSyncOp ε → Option (LogSync ε × List LogWrite)
  | .timer op =>
      if s.syncing = true ∧ op.isLoop = true then none
      else (TimerRun.machine.step s.timer op).map fun p =>
        ({ s with timer := p.1, syncing := s.syncing || decide (p.2 = .fired e) }, [])
  | .log step =>
      if step = .syncLoop ∧ s.syncing = false then none
      else (Logger.machine.step s.logger step).map fun p =>
        ({ s with
          logger := p.1
          syncing := if step = .syncLoop then decide (p.1.sync ≠ .outside) else s.syncing }, p.2)

def machine (e : ε) : Machine (LogSync ε) (LogSyncOp ε) (List LogWrite) := ⟨step e⟩

variable {e : ε} {s s' : LogSync ε} {out : List LogWrite}

theorem timer_of_step {op : TimerOp ε} (h : (machine e).step s (.timer op) = some (s', out)) :
    ¬ (s.syncing = true ∧ op.isLoop = true) ∧ s'.logger = s.logger ∧ out = [] ∧
      ∃ out', TimerRun.machine.step s.timer op = some (s'.timer, out') ∧
        s'.syncing = (s.syncing || decide (out' = .fired e)) := by
  obtain ⟨hidle, hbody⟩ := Option.ite_none_left_eq_some.1 h
  obtain ⟨⟨t, out'⟩, hstep, heq⟩ := Option.map_eq_some_iff.1 hbody
  cases heq
  exact ⟨hidle, rfl, rfl, out', hstep, rfl⟩

theorem log_of_step {step : LogStep} (h : (machine e).step s (.log step) = some (s', out)) :
    Logger.machine.step s.logger step = some (s'.logger, out) ∧ s'.timer = s.timer ∧
      (step = .syncLoop → s.syncing = true ∧ s'.syncing = decide (s'.logger.sync ≠ .outside)) ∧
      (step ≠ .syncLoop → s'.syncing = s.syncing) := by
  obtain ⟨hcalled, hbody⟩ := Option.ite_none_left_eq_some.1 h
  obtain ⟨⟨l, out'⟩, hstep, heq⟩ := Option.map_eq_some_iff.1 hbody
  cases heq
  refine ⟨hstep, rfl, fun hloop => ⟨?_, if_pos hloop⟩, fun hloop => if_neg hloop⟩
  exact Bool.eq_true_of_not_eq_false fun hnot => hcalled ⟨hloop, hnot⟩

/-- What has to go on: the event loop serves the timer, and the threads of the logger go on. -/
def GoesOn (stream : LogStream) (s : LogSync ε) : LogSyncOp ε → Prop
  | .timer op => s.timer.Serves op
  | .log step => Logger.Delivers stream s.logger step

theorem syncLoop_toEnd (l : Logger) :
    l.syncLoop.sync = .outside ∨ l.syncLoop.sync.toEnd < l.sync.toEnd := by
  cases hsync : l.sync with
  | outside | between =>
      rw [Logger.syncLoop, hsync]
      exact Or.inr (Nat.lt_succ_self _)
  | swapped stream temp =>
      rw [Logger.syncLoop, hsync]
      cases stream with
      | rpc => exact Or.inr (Nat.lt_succ_self _)
      | app => exact Or.inl rfl

/-- Only `syncLoop` moves `syncLoop`. -/
theorem sync_of_step {l l' : Logger} {step : LogStep} {out : List LogWrite}
    (hstep : Logger.machine.step l step = some (l', out)) (hloop : step ≠ .syncLoop) :
    l'.sync = l.sync := by
  cases Logger.stepped_of_step hstep with
  | swap | handOver => exact absurd rfl hloop
  | pushLog | pushAppLog | wait | wake | take | openFile | skip | write | finish | stop => rfl

section Execution

variable {x : Execution (machine e)} {stream : LogStream} {n : ℕ}

theorem syncing_of_step {op : LogSyncOp ε} (hsyncing : s.syncing = true)
    (hop : op ≠ .log .syncLoop) (hstep : (machine e).step s op = some (s', out)) :
    s'.syncing = true ∧ s'.logger.sync = s.logger.sync := by
  cases op with
  | timer op =>
      obtain ⟨-, hlogger, -, out', -, hkept⟩ := timer_of_step hstep
      rw [hkept, hsyncing, hlogger]
      exact ⟨rfl, rfl⟩
  | log step =>
      have hloop : step ≠ .syncLoop := fun heq => hop (congrArg LogSyncOp.log heq)
      obtain ⟨hlog, -, -, hkept⟩ := log_of_step hstep
      exact ⟨(hkept hloop).trans hsyncing, sync_of_step hlog hloop⟩

theorem exists_syncLoop (hfair : x.WeaklyFair (GoesOn stream))
    (hsyncing : (x.state n).syncing = true) :
    ∃ m, n ≤ m ∧ (x.state m).logger.sync = (x.state n).logger.sync ∧
      (x.state (m + 1)).logger = (x.state m).logger.syncLoop ∧
      (x.state (m + 1)).syncing = decide ((x.state m).logger.syncLoop.sync ≠ .outside) := by
  obtain ⟨m, hm, hinput, hrunning, hsame⟩ := hfair.exists_input (i := .log .syncLoop)
    (I := fun s => s.syncing = true ∧ s.logger.sync = (x.state n).logger.sync)
    (fun s hs => ⟨trivial, by simp [machine, step, Logger.machine, hs.1]⟩)
    (fun m _ hs op s' out _ hop hstep => by
      obtain ⟨hrunning, hsync⟩ := syncing_of_step hs.1 hop hstep
      exact ⟨hrunning, hsync.trans hs.2⟩) ⟨hsyncing, rfl⟩
  obtain ⟨out, hnext⟩ := x.exists_step hinput
  obtain ⟨hlog, -, hend, -⟩ := log_of_step hnext
  obtain ⟨hlogger, -⟩ := Prod.mk.inj (Option.some.inj hlog)
  refine ⟨m, hm, hsame, hlogger.symm, ?_⟩
  rw [(hend rfl).2, ← hlogger]

theorem exists_idle (hfair : x.WeaklyFair (GoesOn stream)) (n : ℕ) :
    ∃ m, n ≤ m ∧ (x.state m).syncing = false := by
  suffices hreach : ∀ k n, (x.state n).logger.sync.toEnd = k →
      ∃ m, n ≤ m ∧ (x.state m).syncing = false from hreach _ n rfl
  intro k
  induction k using Nat.strong_induction_on with
  | _ k ih =>
    intro n hn
    by_cases hsyncing : (x.state n).syncing = true
    · obtain ⟨m, hm, hsame, hnext, hend⟩ := exists_syncLoop hfair hsyncing
      have hle : n ≤ m + 1 := hm.trans (Nat.le_succ m)
      rcases syncLoop_toEnd (x.state m).logger with hout | hlt
      · exact ⟨m + 1, hle, by rw [hend, hout]; rfl⟩
      · rw [← hnext, hsame, hn] at hlt
        obtain ⟨j, hj, hidle⟩ := ih _ hlt (m + 1) rfl
        exact ⟨j, hle.trans hj, hidle⟩
    · exact ⟨n, le_rfl, Bool.eq_false_iff.2 hsyncing⟩

end Execution

def new (clock : ℤ) (events : ε → TimerEvent) (logFileName logFilePath : Bytes)
    (logMaxFileSize : ℤ) (files : Bytes → Bytes) : LogSync ε where
  timer := .new clock events
  logger := .new logFileName logFilePath logMaxFileSize files

/-- Events are added only while they are not pending, and before they are due. -/
def AddsAhead (s : LogSync ε) : LogSyncOp ε → Prop
  | .timer op => s.timer.AddsAhead op
  | .log _ => True

section Init

variable {clock : ℤ} {events : ε → TimerEvent} {logFileName logFilePath : Bytes}
  {logMaxFileSize : ℤ} {files : Bytes → Bytes} {stream : LogStream} {x : Execution (machine e)}
  {k : ℕ} {interval now : ℤ}

end Init

end LogSync

end Rocket
