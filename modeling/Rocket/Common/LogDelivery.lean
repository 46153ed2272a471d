import Rocket.Common.LogPipeline
import Rocket.Foundation.Execution

/-!
# Every message is written

A message moves from the buffer of the logger to the vector that `syncLoop` swaps out, to the
queue of the asynchronous logger, and into the hands of its thread. What is pushed later stays
behind it and does not hold it up. So if `syncLoop` runs again and again, and the thread goes on
when it can, then every message is written, unless somebody stops the stream.

The condition variable of the thread, which `pushLogBuffer` signals, is left out. That the thread
wakes up when it has a batch to take belongs to what is assumed of it (`Delivers`).
-/

namespace Rocket

open Foundation Machine

/-- The steps that `syncLoop` has to take until it has swapped out the buffer of a stream. -/
def SyncPlace.toSwap : SyncPlace → LogStream → ℕ
  | .outside, .rpc | .between, .app => 1
  | .swapped .app _, .rpc | .swapped .rpc _, .app => 2
  | .between, .rpc | .outside, .app => 3
  | .swapped .rpc _, .rpc | .swapped .app _, .app => 4

/-- The steps that the writer has to take until it tests its buffer. It need not leave the wait
if there is nothing to take. -/
def WriterPlace.toTest (hasBatch : Bool) : WriterPlace → ℕ
  | .taken [] => 2
  | .writing [] => 1
  | .waiting => if hasBatch then 1 else 0
  | .testing | .taken (_ :: _) | .writing (_ :: _) | .returned => 0

/-- A thread that nobody has stopped and that has no empty batches. When it writes, its file is
open. -/
structure AsyncLogger.Active (a : AsyncLogger) (place : WriterPlace) : Prop where
  batches : ∀ batch ∈ a.buffer, batch ≠ []
  taken : place ≠ .taken []
  file : ∀ temp, place = .writing temp → a.fileHandler.isSome = true
  stopFlag : a.stopFlag = false
  returned : place ≠ .returned

section Active

variable {a : AsyncLogger} {place : WriterPlace}

theorem AsyncLogger.isSome_fileHandler_openFile (a : AsyncLogger) (date : Bytes) (size : ℤ) :
    (a.openFile date size).fileHandler.isSome = true := by
  have hreopen : ((a.startDate date).reopen date).fileHandler.isSome = true := by
    unfold AsyncLogger.reopen
    split_ifs with hopen
    · rfl
    · exact Option.isSome_iff_ne_none.2 fun hnone => hopen (Or.inl hnone)
  unfold AsyncLogger.openFile AsyncLogger.rotate
  split_ifs
  · rfl
  · exact hreopen

theorem AsyncLogger.stopFlag_openFile (a : AsyncLogger) (date : Bytes) (size : ℤ) :
    (a.openFile date size).stopFlag = a.stopFlag := by
  unfold AsyncLogger.openFile AsyncLogger.rotate AsyncLogger.reopen AsyncLogger.startDate
  split_ifs <;> rfl

theorem AsyncLogger.Active.of_place {place' : WriterPlace} (h : a.Active place)
    (hplace : place' = .testing ∨ place' = .waiting) : a.Active place' := by
  rcases hplace with rfl | rfl <;> exact ⟨h.batches, nofun, nofun, h.stopFlag, nofun⟩

theorem AsyncLogger.Active.pushLogBuffer {temp : List Bytes} (h : a.Active place)
    (htemp : temp ≠ []) : (a.pushLogBuffer temp).Active place := by
  refine ⟨fun batch hbatch => ?_, h.taken, h.file, h.stopFlag, h.returned⟩
  rcases List.mem_append.1 hbatch with hbatch | hbatch
  · exact h.batches batch hbatch
  · rwa [List.mem_singleton.1 hbatch]

theorem AsyncLogger.Active.take {temp : List Bytes} {buffer : List (List Bytes)}
    (h : a.Active place) (hbuffer : a.buffer = temp :: buffer) :
    { a with buffer := buffer }.Active (.taken temp) := by
  have hbatches := hbuffer ▸ h.batches
  refine ⟨fun batch hbatch => hbatches batch (List.mem_cons_of_mem _ hbatch), ?_, nofun,
    h.stopFlag, nofun⟩
  rintro ⟨⟩
  exact hbatches [] List.mem_cons_self rfl

theorem AsyncLogger.Active.openFile (h : a.Active place) (date : Bytes) (size : ℤ)
    (temp : List Bytes) : (a.openFile date size).Active (.writing temp) := by
  refine ⟨?_, nofun, fun _ _ => a.isSome_fileHandler_openFile date size, ?_, nofun⟩
  · rw [Logger.buffer_openFile]
    exact h.batches
  · rw [a.stopFlag_openFile]
    exact h.stopFlag

end Active

namespace Logger

/-- What has to go on for the messages of a stream to be written: `syncLoop`, and the thread of
the stream. It need not wake up if there is nothing to take. -/
def Delivers (stream : LogStream) (l : Logger) : LogStep → Prop
  | .syncLoop => True
  | .wake dest => dest = stream ∧ (l.asyncLogger stream).buffer ≠ []
  | .take dest | .openFile dest _ _ | .write dest | .finish dest => dest = stream
  | .pushLog _ | .pushAppLog _ | .wait _ | .stop _ => False

section Front

variable (stream : LogStream) (place : WriterPlace) (batches : List (List Bytes))
  (sync : SyncPlace)

/-- The steps until the message in front is written: the writer holds it, it is in a batch in
the queue, it has been swapped out, or it is in the buffer of the logger. -/
def toWrite : ℕ :=
  match place with
  | .writing (_ :: _) => 1
  | .taken (_ :: _) => 2
  | _ =>
      if batches ≠ [] then 3 + place.toTest true
      else 7 + place.toTest false + if sync.held stream ≠ [] then 0 else sync.toSwap stream

def Ready : LogStep → Prop
  | .syncLoop => place.held = [] ∧ batches = []
  | .wake dest => dest = stream ∧ place = .waiting ∧ batches ≠ []
  | .take dest => dest = stream ∧ place = .testing ∧ batches ≠ []
  | .openFile dest _ _ => dest = stream ∧ ∃ temp, place = .taken temp
  | .write dest => dest = stream ∧ ∃ msg temp, place = .writing (msg :: temp)
  | .finish dest => dest = stream ∧ place = .writing []
  | .pushLog _ | .pushAppLog _ | .wait _ | .stop _ => False

variable {stream place batches sync}

theorem toWrite_le : toWrite stream place batches sync ≤ 13 := by
  have htest (b : Bool) : place.toTest b ≤ 2 := by
    unfold WriterPlace.toTest
    split <;> (try split) <;> omega
  have hswap : sync.toSwap stream ≤ 4 := by
    unfold SyncPlace.toSwap
    split <;> omega
  have htrue := htest true
  have hfalse := htest false
  unfold toWrite
  split
  · omega
  · omega
  · split_ifs <;> omega

theorem toWrite_of_held (hheld : place.held ≠ []) (batches' : List (List Bytes))
    (sync' : SyncPlace) :
    toWrite stream place batches' sync' = toWrite stream place batches sync := by
  cases place with
  | taken temp | writing temp =>
      cases temp with
      | nil => exact absurd rfl hheld
      | cons => rfl
  | testing | waiting | returned => exact absurd rfl hheld

theorem toWrite_of_batches (hheld : place.held = []) (hbatches : batches ≠ []) :
    toWrite stream place batches sync = 3 + place.toTest true := by
  cases place with
  | taken temp | writing temp =>
      obtain rfl : temp = [] := hheld
      exact if_pos hbatches
  | testing | waiting | returned => exact if_pos hbatches

theorem toWrite_of_sync (hheld : place.held = []) :
    toWrite stream place [] sync = 7 + place.toTest false +
      if sync.held stream ≠ [] then 0 else sync.toSwap stream := by
  cases place with
  | taken temp | writing temp =>
      obtain rfl : temp = [] := hheld
      simp only [toWrite, ne_eq, not_true_eq_false, if_false]
  | testing | waiting | returned => simp only [toWrite, ne_eq, not_true_eq_false, if_false]

theorem Ready.congr {batches' : List (List Bytes)} {op : LogStep}
    (h : Ready stream place batches op) (hloop : ¬ Ready stream place batches .syncLoop)
    (hbatches : batches ≠ [] → batches' ≠ []) : Ready stream place batches' op := by
  cases op with
  | syncLoop => exact absurd h hloop
  | wake | take => exact ⟨h.1, h.2.1, hbatches h.2.2⟩
  | openFile | write | finish => exact h
  | pushLog | pushAppLog | wait | stop => cases h

end Front

theorem Ready.delivers {l : Logger} {stream : LogStream} {op : LogStep}
    (h : Ready stream (l.writer stream) (l.asyncLogger stream).buffer op) :
    l.Delivers stream op := by
  cases op with
  | syncLoop => trivial
  | wake => exact ⟨h.1, h.2.2⟩
  | take | openFile | write | finish => exact h.1
  | pushLog | pushAppLog | wait | stop => cases h

variable {l l' : Logger} {op : LogStep} {out : List LogWrite} {stream : LogStream}

/-- A step brings the message in front nearer to the file, or it does not concern it. -/
def Advances (stream : LogStream) (l : Logger) (op : LogStep) (l' : Logger) : Prop :=
  Ready stream (l.writer stream) (l.asyncLogger stream).buffer op ∧
      ((l'.inFlight stream).length + 1 = (l.inFlight stream).length ∨
        (l'.inFlight stream).length = (l.inFlight stream).length ∧
          toWrite stream (l'.writer stream) (l'.asyncLogger stream).buffer l'.sync <
            toWrite stream (l.writer stream) (l.asyncLogger stream).buffer l.sync) ∨
    ¬ Ready stream (l.writer stream) (l.asyncLogger stream).buffer op ∧
      (l'.inFlight stream).length =
        (l.inFlight stream).length + (pushedTo stream [op]).length ∧
      toWrite stream (l'.writer stream) (l'.asyncLogger stream).buffer l'.sync =
        toWrite stream (l.writer stream) (l.asyncLogger stream).buffer l.sync ∧
      ∀ op', Ready stream (l.writer stream) (l.asyncLogger stream).buffer op' →
        Ready stream (l'.writer stream) (l'.asyncLogger stream).buffer op'

theorem advances_of_same
    (hready : ¬ Ready stream (l.writer stream) (l.asyncLogger stream).buffer op)
    (hlen : (l'.inFlight stream).length =
      (l.inFlight stream).length + (pushedTo stream [op]).length)
    (hwriter : l'.writer stream = l.writer stream)
    (hbuffer : (l'.asyncLogger stream).buffer = (l.asyncLogger stream).buffer)
    (hsync : l'.sync = l.sync) : Advances stream l op l' := by
  refine Or.inr ⟨hready, hlen, ?_, fun op' => ?_⟩
  · rw [hwriter, hbuffer, hsync]
  · rw [hwriter, hbuffer]
    exact id

theorem advances_push (dest : LogStream) (msg : Bytes)
    (hop : ¬ Ready stream (l.writer stream) (l.asyncLogger stream).buffer op)
    (hpush : pushedTo stream [op] = if stream = dest then [msg] else []) :
    Advances stream l op (l.push dest msg) := by
  refine advances_of_same hop ?_ rfl rfl rfl
  rw [inFlight_push, List.length_append, hpush]

theorem advances_of_ne {dest : LogStream} {place : WriterPlace} {a : AsyncLogger}
    (hdest : stream ≠ dest) (hready : ¬ l.Delivers stream op)
    (hpush : pushedTo stream [op] = []) (hin : l'.inFlight stream = l.inFlight stream)
    (hwriter : l'.writer = Function.update l.writer dest place)
    (hasync : l'.asyncLogger = Function.update l.asyncLogger dest a) (hsync : l'.sync = l.sync) :
    Advances stream l op l' := by
  refine advances_of_same (fun h => hready h.delivers) ?_ ?_ ?_ hsync
  · rw [hin, hpush]
    rfl
  · rw [hwriter, Function.update_of_ne hdest]
  · rw [hasync, Function.update_of_ne hdest]

theorem inFlight_syncLoop (l : Logger) (stream : LogStream) :
    l.syncLoop.inFlight stream = l.inFlight stream := by
  unfold syncLoop
  cases hsync : l.sync with
  | outside | between => exact inFlight_swap (by rw [hsync]; rfl) _
  | swapped dest temp => exact inFlight_handOver hsync

/-- `syncLoop` adds batches that are not empty. -/
theorem buffer_handOver (l : Logger) (dest : LogStream) (temp : List Bytes) (stream : LogStream) :
    ((l.handOver dest temp).asyncLogger stream).buffer =
      (l.asyncLogger stream).buffer ++ if dest = stream ∧ temp ≠ [] then [temp] else [] := by
  unfold handOver
  by_cases hempty : temp = []
  · simp [hempty]
  · by_cases hto : stream = dest
    · subst hto
      simp [hempty, AsyncLogger.pushLogBuffer]
    · simp [hempty, Function.update_of_ne hto, Ne.symm hto]

/-- `syncLoop` comes nearer to where it swaps out the buffer of a stream. -/
theorem toSwap_syncLoop (hbuffer : l.buffer stream ≠ [])
    (hnone : l.syncLoop.sync.held stream = []) :
    l.syncLoop.sync.toSwap stream + 1 = l.sync.toSwap stream := by
  unfold syncLoop at hnone ⊢
  cases hplace : l.sync with
  | outside | between =>
      rw [hplace] at hnone
      cases stream <;> first | exact absurd hnone hbuffer | rfl
  | swapped dest temp => cases dest <;> cases stream <;> rfl

theorem toSwap_pos (sync : SyncPlace) (stream : LogStream) : 0 < sync.toSwap stream := by
  unfold SyncPlace.toSwap
  split <;> exact Nat.succ_pos _

theorem buffer_syncLoop_ne (hheld : l.sync.held stream ≠ []) :
    (l.syncLoop.asyncLogger stream).buffer ≠ [] := by
  unfold syncLoop
  cases hsync : l.sync with
  | outside | between =>
      rw [hsync] at hheld
      exact absurd rfl hheld
  | swapped dest temp =>
      rw [hsync, SyncPlace.held] at hheld
      by_cases hdest : dest = stream
      · rw [if_pos hdest] at hheld
        simp only [buffer_handOver, if_pos (And.intro hdest hheld)]
        exact List.append_ne_nil_of_right_ne_nil _ (List.cons_ne_nil _ _)
      · rw [if_neg hdest] at hheld
        exact absurd rfl hheld

/-- As long as the writer has nothing, `syncLoop` brings the message in front nearer to it. -/
theorem toWrite_syncLoop_lt (hheld : (l.writer stream).held = [])
    (hbatches : (l.asyncLogger stream).buffer = []) (hne : l.inFlight stream ≠ []) :
    toWrite stream (l.syncLoop.writer stream) (l.syncLoop.asyncLogger stream).buffer
        l.syncLoop.sync <
      toWrite stream (l.writer stream) (l.asyncLogger stream).buffer l.sync := by
  have hwriter : l.syncLoop.writer = l.writer := by
    unfold syncLoop
    cases l.sync <;> rfl
  have htest : (l.writer stream).toTest true ≤ 2 := by
    unfold WriterPlace.toTest
    split <;> decide
  rw [hwriter, hbatches, toWrite_of_sync hheld]
  by_cases hbatches' : (l.syncLoop.asyncLogger stream).buffer = []
  · have hsync : l.sync.held stream = [] := not_not.1 fun h => buffer_syncLoop_ne h hbatches'
    have hbuffer : l.buffer stream ≠ [] := by
      simpa [inFlight, hheld, hbatches, hsync] using hne
    rw [hbatches', toWrite_of_sync hheld, if_neg (not_not.2 hsync)]
    refine Nat.add_lt_add_left ?_ _
    split_ifs with hheld'
    · exact toSwap_pos l.sync stream
    · rw [← toSwap_syncLoop hbuffer (not_not.1 hheld')]
      exact Nat.lt_succ_self _
  · rw [toWrite_of_batches hheld hbatches']
    omega

theorem advances_syncLoop (hne : l.inFlight stream ≠ []) :
    Advances stream l .syncLoop l.syncLoop := by
  have hin := inFlight_syncLoop l stream
  have hwriter : l.syncLoop.writer = l.writer := by
    unfold syncLoop
    cases l.sync <;> rfl
  by_cases hready : Ready stream (l.writer stream) (l.asyncLogger stream).buffer .syncLoop
  · exact Or.inl ⟨hready, Or.inr ⟨congrArg List.length hin,
      toWrite_syncLoop_lt hready.1 hready.2 hne⟩⟩
  · have hbatches : (l.asyncLogger stream).buffer ≠ [] →
        (l.syncLoop.asyncLogger stream).buffer ≠ [] := by
      intro hbatches
      unfold syncLoop
      cases l.sync with
      | outside | between => exact hbatches
      | swapped dest temp =>
          simp only [buffer_handOver]
          exact List.append_ne_nil_of_left_ne_nil hbatches _
    refine Or.inr ⟨hready, congrArg List.length hin, ?_, fun op' hready' => ?_⟩
    · rw [hwriter]
      by_cases hheld : (l.writer stream).held = []
      · have hne' : (l.asyncLogger stream).buffer ≠ [] := fun h => hready ⟨hheld, h⟩
        rw [toWrite_of_batches hheld hne', toWrite_of_batches hheld (hbatches hne')]
      · exact toWrite_of_held hheld _ _
    · rw [hwriter]
      exact hready'.congr hready hbatches

theorem advances_of_lt {place : WriterPlace} {a : AsyncLogger}
    (hready : Ready stream (l.writer stream) (l.asyncLogger stream).buffer op)
    (hin : l'.inFlight stream = l.inFlight stream)
    (hwriter : l'.writer = Function.update l.writer stream place)
    (hasync : l'.asyncLogger = Function.update l.asyncLogger stream a) (hsync : l'.sync = l.sync)
    (hlt : toWrite stream place a.buffer l.sync <
      toWrite stream (l.writer stream) (l.asyncLogger stream).buffer l.sync) :
    Advances stream l op l' := by
  refine Or.inl ⟨hready, Or.inr ⟨congrArg List.length hin, ?_⟩⟩
  rwa [hwriter, hasync, hsync, Function.update_self, Function.update_self]

theorem advances_of_wait {place : WriterPlace} (hplace : l.writer stream = .testing ∨
      l.writer stream = .waiting) (hplace' : place = .testing ∨ place = .waiting)
    (hbuffer : (l.asyncLogger stream).buffer = [])
    (hready : ¬ Ready stream (l.writer stream) (l.asyncLogger stream).buffer op)
    (hpush : pushedTo stream [op] = []) : Advances stream l op (l.setWriter stream place) := by
  have hheld : place.held = (l.writer stream).held := by
    rcases hplace with h | h <;> rcases hplace' with rfl | rfl <;> rw [h] <;> rfl
  refine Or.inr ⟨hready, ?_, ?_, fun op' hready' => ?_⟩
  · rw [inFlight_setWriter hheld, hpush]
    rfl
  · change toWrite stream (Function.update l.writer stream place stream) _ _ = _
    rw [Function.update_self]
    change toWrite stream place (l.asyncLogger stream).buffer l.sync = _
    rcases hplace with h | h <;> rcases hplace' with rfl | rfl <;> rw [h, hbuffer] <;> rfl
  · change Ready stream (Function.update l.writer stream place stream) (l.asyncLogger stream).buffer
      op'
    rw [Function.update_self]
    cases op' with
    | syncLoop => exact ⟨hheld.trans hready'.1, hready'.2⟩
    | wake | take => exact absurd hbuffer hready'.2.2
    | openFile | write | finish =>
        rcases hplace with h | h <;> simp [Ready, h] at hready'
    | pushLog | pushAppLog | wait | stop => cases hready'

theorem advances_of_written {dest : LogStream} {msg : Bytes} {temp : List Bytes}
    (hplace : l.writer dest = .writing (msg :: temp))
    (hwriter : l'.writer = (l.setWriter dest (.writing temp)).writer)
    (hasync : l'.asyncLogger = l.asyncLogger) (hsync : l'.sync = l.sync)
    (hbuffer : l'.buffer = l.buffer) : Advances stream l (.write dest) l' := by
  have hin' : l'.inFlight stream = (l.setWriter dest (.writing temp)).inFlight stream := by
    rw [inFlight, hwriter, hasync, hsync, hbuffer]
    rfl
  have hin := inFlight_written hplace stream
  rw [← hin'] at hin
  by_cases hdest : stream = dest
  · subst hdest
    rw [if_pos rfl] at hin
    exact Or.inl ⟨⟨rfl, msg, temp, hplace⟩, Or.inl (congrArg List.length hin).symm⟩
  · rw [if_neg hdest] at hin
    exact advances_of_ne hdest (fun h => hdest h.symm) rfl hin.symm hwriter
      (hasync.trans (Function.update_eq_self ..).symm) hsync

/-- Every step but those of `syncLoop` brings the message in front nearer to the file or does
not concern it. -/
theorem Stepped.advances (h : l.Stepped op l' out)
    (hactive : (l.asyncLogger stream).Active (l.writer stream)) (hloop : op ≠ .syncLoop)
    (hstop : op ≠ .stop stream) : Advances stream l op l' := by
  cases h with
  | pushLog msg | pushAppLog msg =>
      exact advances_push _ msg id (List.flatMap_singleton _ _)
  | swap | handOver => exact absurd rfl hloop
  | wait dest hplace hbuffer =>
      by_cases hdest : stream = dest
      · subst hdest
        exact advances_of_wait (Or.inl hplace) (Or.inr rfl) hbuffer id rfl
      · exact advances_of_ne hdest id rfl (inFlight_setWriter (by rw [hplace]; rfl)) rfl
          (Function.update_eq_self ..).symm rfl
  | wake dest hplace =>
      by_cases hdest : stream = dest
      · subst hdest
        by_cases hbuffer : (l.asyncLogger stream).buffer = []
        · exact advances_of_wait (Or.inr hplace) (Or.inl rfl) hbuffer (fun h => h.2.2 hbuffer) rfl
        · refine advances_of_lt ⟨rfl, hplace, hbuffer⟩ (inFlight_setWriter (by rw [hplace]; rfl))
            rfl (Function.update_eq_self ..).symm rfl ?_
          change toWrite stream .testing (l.asyncLogger stream).buffer l.sync < _
          rw [hplace, toWrite_of_batches rfl hbuffer, toWrite_of_batches rfl hbuffer]
          decide
      · exact advances_of_ne hdest (fun h => hdest h.1.symm) rfl
          (inFlight_setWriter (by rw [hplace]; rfl)) rfl (Function.update_eq_self ..).symm rfl
  | take dest temp buffer hplace hbuffer =>
      by_cases hdest : stream = dest
      · subst hdest
        have hne : (l.asyncLogger stream).buffer ≠ [] := hbuffer ▸ List.cons_ne_nil _ _
        refine advances_of_lt ⟨rfl, hplace, hne⟩ (inFlight_take hplace hbuffer) rfl rfl rfl ?_
        cases temp with
        | nil => exact absurd rfl (hactive.batches [] (hbuffer ▸ List.mem_cons_self))
        | cons msg temp =>
            rw [hplace, toWrite_of_batches rfl hne]
            exact Nat.lt_succ_self _
      · exact advances_of_ne hdest (fun h => hdest h.symm) rfl (inFlight_take hplace hbuffer) rfl
          rfl rfl
  | openFile dest date size temp hplace =>
      have hin : ((l.setAsyncLogger dest
          ((l.asyncLogger dest).openFile date size)).setWriter dest (.writing temp)).inFlight
            stream = l.inFlight stream := by
        rw [inFlight_setWriter, inFlight_setAsyncLogger (buffer_openFile _ date size)]
        change temp = (l.writer dest).held
        rw [hplace]
        rfl
      by_cases hdest : stream = dest
      · subst hdest
        refine advances_of_lt ⟨rfl, temp, hplace⟩ hin rfl rfl rfl ?_
        cases temp with
        | nil => exact absurd hplace hactive.taken
        | cons msg temp =>
            rw [hplace]
            exact Nat.lt_succ_self _
      · exact advances_of_ne hdest (fun h => hdest h.symm) rfl hin rfl rfl rfl
  | skip dest temp hplace => exact advances_of_written hplace rfl rfl rfl rfl
  | write dest msg temp file hplace hfile => exact advances_of_written hplace rfl rfl rfl rfl
  | finish dest hplace =>
      have hin : (l.setWriter dest
          (if (l.asyncLogger dest).stopFlag then .returned else .testing)).inFlight stream =
            l.inFlight stream := by
        refine inFlight_setWriter ?_
        rw [hplace]
        split_ifs <;> rfl
      by_cases hdest : stream = dest
      · subst hdest
        refine advances_of_lt ⟨rfl, hplace⟩ hin rfl (Function.update_eq_self ..).symm rfl ?_
        rw [hplace, if_neg (by rw [hactive.stopFlag]; exact Bool.false_ne_true)]
        change toWrite stream .testing (l.asyncLogger stream).buffer l.sync < _
        by_cases hbuffer : (l.asyncLogger stream).buffer = []
        · rw [hbuffer, toWrite_of_sync rfl, toWrite_of_sync rfl]
          exact Nat.add_lt_add_right (by decide) _
        · rw [toWrite_of_batches rfl hbuffer, toWrite_of_batches rfl hbuffer]
          decide
      · exact advances_of_ne hdest (fun h => hdest h.symm) rfl hin rfl
          (Function.update_eq_self ..).symm rfl
  | stop dest =>
      have hdest : stream ≠ dest := fun h => hstop (h ▸ rfl)
      exact advances_of_ne hdest id rfl (inFlight_setAsyncLogger rfl)
        (Function.update_eq_self ..).symm rfl rfl

theorem Stepped.active (h : l.Stepped op l' out)
    (hactive : (l.asyncLogger stream).Active (l.writer stream)) (hstop : op ≠ .stop stream) :
    (l'.asyncLogger stream).Active (l'.writer stream) := by
  have hset {dest : LogStream} {a : AsyncLogger} {place : WriterPlace}
      (ha : stream = dest → a.Active place) :
      (Function.update l.asyncLogger dest a stream).Active
        (Function.update l.writer dest place stream) := by
    by_cases hdest : stream = dest
    · subst hdest
      rw [Function.update_self, Function.update_self]
      exact ha rfl
    · rwa [Function.update_of_ne hdest, Function.update_of_ne hdest]
  have hwriter {dest : LogStream} {place : WriterPlace}
      (ha : stream = dest → (l.asyncLogger stream).Active place) :
      (l.asyncLogger stream).Active (Function.update l.writer dest place stream) := by
    by_cases hdest : stream = dest
    · subst hdest
      rw [Function.update_self]
      exact ha rfl
    · rwa [Function.update_of_ne hdest]
  cases h with
  | pushLog | pushAppLog | swap => exact hactive
  | handOver dest temp =>
      change (Logger.asyncLogger _ stream).Active (l.writer stream)
      unfold Logger.handOver
      split_ifs with htemp
      · by_cases hdest : stream = dest
        · subst hdest
          simpa only [Function.update_self] using hactive.pushLogBuffer htemp
        · simpa only [Function.update_of_ne hdest] using hactive
      · exact hactive
  | wait dest => exact hwriter fun _ => hactive.of_place (Or.inr rfl)
  | wake dest => exact hwriter fun _ => hactive.of_place (Or.inl rfl)
  | take dest temp buffer hplace hbuffer => exact hset fun hdest => (hdest ▸ hactive).take hbuffer
  | openFile dest date size temp hplace =>
      exact hset fun hdest => (hdest ▸ hactive).openFile date size temp
  | skip dest temp hplace | write dest msg temp file hplace hfile =>
      refine hwriter fun hdest => ?_
      subst hdest
      exact ⟨hactive.batches, nofun, fun _ _ => hactive.file _ hplace, hactive.stopFlag, nofun⟩
  | finish dest hplace =>
      refine hwriter fun hdest => ?_
      subst hdest
      rw [if_neg (by rw [hactive.stopFlag]; exact Bool.false_ne_true)]
      exact hactive.of_place (Or.inl rfl)
  | stop dest =>
      have hdest : stream ≠ dest := fun h => hstop (h ▸ rfl)
      change (Function.update l.asyncLogger dest _ stream).Active (l.writer stream)
      rwa [Function.update_of_ne hdest]

theorem Ready.isSome_step (h : Ready stream (l.writer stream) (l.asyncLogger stream).buffer op)
    (hactive : (l.asyncLogger stream).Active (l.writer stream)) :
    (machine.step l op).isSome = true := by
  cases op with
  | syncLoop => rfl
  | wake dest =>
      obtain ⟨rfl, hplace, -⟩ := h
      simp only [machine, hplace, if_true, Option.isSome_some]
  | take dest =>
      obtain ⟨rfl, hplace, hbuffer⟩ := h
      obtain ⟨temp, buffer, hbuffer⟩ := List.exists_cons_of_ne_nil hbuffer
      simp only [machine, take, hplace, hbuffer, Option.map_some, Option.isSome_some]
  | openFile dest date size =>
      obtain ⟨rfl, temp, hplace⟩ := h
      simp only [machine, hplace, Option.isSome_some]
  | write dest =>
      obtain ⟨rfl, msg, temp, hplace⟩ := h
      obtain ⟨file, hfile⟩ := Option.isSome_iff_exists.1 (hactive.file _ hplace)
      simp only [machine, write, hplace, hfile, Option.map_some]
      split <;> rfl
  | finish dest =>
      obtain ⟨rfl, hplace⟩ := h
      simp only [machine, hplace, if_true, Option.isSome_some]
  | pushLog | pushAppLog | wait | stop => cases h

theorem exists_ready (hactive : (l.asyncLogger stream).Active (l.writer stream)) :
    ∃ op, Ready stream (l.writer stream) (l.asyncLogger stream).buffer op := by
  cases hplace : l.writer stream with
  | testing | waiting =>
      by_cases hbuffer : (l.asyncLogger stream).buffer = []
      · exact ⟨.syncLoop, rfl, hbuffer⟩
      · first
        | exact ⟨.take stream, rfl, rfl, hbuffer⟩
        | exact ⟨.wake stream, rfl, rfl, hbuffer⟩
  | taken temp => exact ⟨.openFile stream [] 0, rfl, temp, rfl⟩
  | writing temp =>
      cases temp with
      | nil => exact ⟨.finish stream, rfl, rfl⟩
      | cons msg temp => exact ⟨.write stream, rfl, msg, temp, rfl⟩
  | returned => exact absurd hplace hactive.returned

theorem advances_of_step (hstep : machine.step l op = some (l', out))
    (hactive : (l.asyncLogger stream).Active (l.writer stream)) (hne : l.inFlight stream ≠ [])
    (hstop : op ≠ .stop stream) : Advances stream l op l' := by
  by_cases hloop : op = .syncLoop
  · subst hloop
    cases hstep
    exact advances_syncLoop hne
  · exact (stepped_of_step hstep).advances hactive hloop hstop

theorem Ready.pushedTo (h : Ready stream (l.writer stream) (l.asyncLogger stream).buffer op) :
    pushedTo stream [op] = [] := by
  cases op with
  | syncLoop | wake | take | openFile | write | finish => rfl
  | pushLog | pushAppLog | wait | stop => cases h

section Delivered

variable (stream) (k : ℕ) (p : Logger × List LogStep)

/-- How many of the first `k` messages of a stream have not been written. -/
def behind : ℕ := (p.1.inFlight stream).length - ((pushedTo stream p.2).length - k)

/-- The steps until the first `k` messages of a stream have been written. -/
def stepsLeft : ℕ :=
  if behind stream k p = 0 then 0
  else 14 * behind stream k p +
    toWrite stream (p.1.writer stream) (p.1.asyncLogger stream).buffer p.1.sync

/-- The thread is active, and the first `k` messages have been pushed. -/
structure Tracked : Prop where
  active : (p.1.asyncLogger stream).Active (p.1.writer stream)
  le : k ≤ (pushedTo stream p.2).length

variable {stream k p} {p' : Logger × List LogStep}

theorem Tracked.step (h : Tracked stream k p) (hop : op ≠ .stop stream)
    (hstep : machine.recording.step p op = some (p', out)) : Tracked stream k p' := by
  obtain ⟨hstep, hsteps⟩ := recording_step_eq_some_iff.1 hstep
  refine ⟨(stepped_of_step hstep).active h.active hop, ?_⟩
  rw [hsteps, pushedTo_append, List.length_append]
  exact h.le.trans (Nat.le_add_right _ _)

theorem stepsLeft_eq_zero_iff : stepsLeft stream k p = 0 ↔ behind stream k p = 0 := by
  unfold stepsLeft
  split_ifs with h
  · exact iff_of_true rfl h
  · exact iff_of_false (by omega) h

theorem behind_step_eq_zero (h : Tracked stream k p)
    (hstep : machine.recording.step p op = some (p', out)) (hbehind : behind stream k p = 0) :
    behind stream k p' = 0 := by
  obtain ⟨hstep, hsteps⟩ := recording_step_eq_some_iff.1 hstep
  obtain ⟨written, hmoves, -⟩ := (stepped_of_step hstep).moves stream
  have hlen := congrArg List.length hmoves
  have hle := h.le
  unfold behind at hbehind ⊢
  rw [hsteps, pushedTo_append]
  simp only [List.length_append] at hlen ⊢
  omega

/-- A step brings the messages nearer to the files, or it leaves them where they are and what
brings them nearer can still be done. -/
theorem stepsLeft_step (h : Tracked stream k p) (hop : op ≠ .stop stream)
    (hstep : machine.recording.step p op = some (p', out)) (hleft : stepsLeft stream k p ≠ 0) :
    Ready stream (p.1.writer stream) (p.1.asyncLogger stream).buffer op ∧
        stepsLeft stream k p' < stepsLeft stream k p ∨
      ¬ Ready stream (p.1.writer stream) (p.1.asyncLogger stream).buffer op ∧
        stepsLeft stream k p' = stepsLeft stream k p ∧
        ∀ op', Ready stream (p.1.writer stream) (p.1.asyncLogger stream).buffer op' →
          Ready stream (p'.1.writer stream) (p'.1.asyncLogger stream).buffer op' := by
  obtain ⟨hstep, hsteps⟩ := recording_step_eq_some_iff.1 hstep
  have hbehind : behind stream k p ≠ 0 := mt stepsLeft_eq_zero_iff.2 hleft
  have heq : stepsLeft stream k p = 14 * behind stream k p +
      toWrite stream (p.1.writer stream) (p.1.asyncLogger stream).buffer p.1.sync :=
    if_neg hbehind
  have hle := h.le
  have hne : p.1.inFlight stream ≠ [] := by
    rintro hnil
    rw [behind, hnil] at hbehind
    exact hbehind (Nat.zero_sub _)
  rcases advances_of_step hstep h.active hne hop with
    ⟨hready, hlt⟩ | ⟨hready, hlen, hsame, hkeeps⟩
  · refine Or.inl ⟨hready, ?_⟩
    have hpushed : pushedTo stream p'.2 = pushedTo stream p.2 := by
      rw [hsteps, pushedTo_append, hready.pushedTo, List.append_nil]
    have hmax : toWrite stream (p'.1.writer stream) (p'.1.asyncLogger stream).buffer p'.1.sync ≤
        13 := toWrite_le
    rw [heq, stepsLeft, behind, hpushed]
    rw [behind] at hbehind ⊢
    split_ifs with hdone <;> omega
  · refine Or.inr ⟨hready, ?_, hkeeps⟩
    have hbehind' : behind stream k p' = behind stream k p := by
      rw [behind, behind, hsteps, pushedTo_append, List.length_append]
      omega
    rw [heq, stepsLeft, hbehind', if_neg hbehind, hsame]

theorem Ready.helps (h : Tracked stream k p) (hleft : stepsLeft stream k p ≠ 0)
    (hready : Ready stream (p.1.writer stream) (p.1.asyncLogger stream).buffer op) :
    machine.recording.Helps (stepsLeft stream k) p op := by
  obtain ⟨⟨l', out⟩, hstep⟩ := Option.isSome_iff_exists.1 (hready.isSome_step h.active)
  have hstep' : machine.recording.step p op = some ((l', p.2 ++ [op]), out) :=
    recording_step_eq_some_iff.2 ⟨hstep, rfl⟩
  have hop : op ≠ .stop stream := fun heq => by
    subst heq
    exact hready
  rcases stepsLeft_step h hop hstep' hleft with ⟨-, hlt⟩ | ⟨hnot, -, -⟩
  · exact ⟨_, out, hstep', hlt⟩
  · exact absurd hready hnot

theorem countsDown (stream : LogStream) (k : ℕ) :
    CountsDown machine.recording (fun _ op => op ≠ .stop stream) (fun p => Delivers stream p.1)
      (Tracked stream k) (stepsLeft stream k) where
  keeps _ _ _ _ h hop hstep := h.step hop hstep
  le p op p' out h hop hstep := by
    by_cases hleft : stepsLeft stream k p = 0
    · have hbehind := behind_step_eq_zero h hstep (stepsLeft_eq_zero_iff.1 hleft)
      exact (stepsLeft_eq_zero_iff.2 hbehind).le.trans (Nat.zero_le _)
    · rcases stepsLeft_step h hop hstep hleft with ⟨-, hlt⟩ | ⟨-, heq, -⟩
      · exact hlt.le
      · exact heq.le
  helps p h hleft := by
    obtain ⟨op, hready⟩ := exists_ready h.active
    exact ⟨op, hready.delivers, hready.helps h hleft⟩
  stays p op op' p' out h hacts hhelps hop' hstep := by
    obtain ⟨q, out', hstep', hlt⟩ := hhelps
    have hleft : stepsLeft stream k p ≠ 0 := Nat.ne_zero_of_lt hlt
    have hop : op ≠ .stop stream := fun heq => by
      subst heq
      exact hacts
    rcases stepsLeft_step h hop hstep' hleft with ⟨hready, -⟩ | ⟨-, heq, -⟩
    · rcases stepsLeft_step h hop' hstep hleft with ⟨-, hlt'⟩ | ⟨-, heq, hkeeps⟩
      · exact Or.inl hlt'
      · have hready' := hkeeps op hready
        exact Or.inr ⟨hready'.delivers, hready'.helps (h.step hop' hstep) (heq ▸ hleft)⟩
    · exact absurd heq hlt.ne

end Delivered

/-- Two messages, the second of which is pushed while the first one is on its way. -/
def twoMessages : List LogStep :=
  [.wait .rpc, .pushLog (ascii "first\n"), .syncLoop, .pushLog (ascii "second\n"), .syncLoop,
    .syncLoop, .syncLoop, .wake .rpc, .take .rpc, .openFile .rpc (ascii "20231225") 0, .write .rpc,
    .syncLoop, .syncLoop, .syncLoop, .syncLoop, .finish .rpc, .take .rpc,
    .openFile .rpc (ascii "20231225") 6, .write .rpc, .finish .rpc, .wait .rpc]

end Logger

end Rocket
