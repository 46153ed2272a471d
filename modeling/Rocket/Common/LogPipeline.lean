import Rocket.Common.Log

/-!
# The logger loses and reorders nothing

A message passes from the buffer of the logger through the vector that `syncLoop` holds,
the queue of the asynchronous logger and the batch of its thread to the file. Together
these are a queue for each of the two streams: a push adds a message at the back, a write
takes the one at the front, and every other step leaves the queue as it is.
-/

namespace Rocket

open Foundation

namespace WriterPlace

def held : WriterPlace → List Bytes
  | .taken temp => temp
  | .writing temp => temp
  | _ => []

end WriterPlace

namespace SyncPlace

/-- The messages that `syncLoop` has swapped out of a stream. -/
def held (place : SyncPlace) (stream : LogStream) : List Bytes :=
  match place with
  | .swapped stream' temp => if stream' = stream then temp else []
  | _ => []

end SyncPlace

def LogStream.IsFile (stream : LogStream) (logFileName logFilePath file : Bytes) : Prop :=
  ∃ rest, file = logFilePath ++ (logFileName ++ stream.suffix ++ rest)

theorem LogStream.IsFile.unique {stream stream' : LogStream}
    {logFileName logFilePath file : Bytes} (h : stream.IsFile logFileName logFilePath file)
    (h' : stream'.IsFile logFileName logFilePath file) : stream = stream' := by
  obtain ⟨rest, rfl⟩ := h
  obtain ⟨rest', heq⟩ := h'
  have hrest := List.append_cancel_left heq
  rw [List.append_assoc, List.append_assoc] at hrest
  have hlen : stream.suffix.length = stream'.suffix.length := by
    cases stream <;> cases stream' <;> decide
  have hsuffix := (List.append_inj (List.append_cancel_left hrest) hlen).1
  cases stream <;> cases stream' <;> first | rfl | exact absurd hsuffix (by decide)

/-- An asynchronous logger keeps to the files of its stream. -/
structure AsyncLogger.Names (a : AsyncLogger) (stream : LogStream)
    (logFileName logFilePath : Bytes) : Prop where
  fileName_eq : a.fileName = logFileName ++ stream.suffix
  filePath_eq : a.filePath = logFilePath
  isFile : ∀ file, a.fileHandler = some file → stream.IsFile logFileName logFilePath file

section Names

variable {a : AsyncLogger} {stream : LogStream} {logFileName logFilePath : Bytes}

theorem AsyncLogger.Names.isFile_logFileName (h : a.Names stream logFileName logFilePath)
    (date : Bytes) (no : ℕ) :
    stream.IsFile logFileName logFilePath (a.logFileName date no) := by
  rw [AsyncLogger.logFileName, h.fileName_eq, h.filePath_eq]
  exact ⟨_, rfl⟩

theorem AsyncLogger.Names.openFile (h : a.Names stream logFileName logFilePath) (date : Bytes)
    (size : ℤ) : (a.openFile date size).Names stream logFileName logFilePath := by
  have hstart : (a.startDate date).Names stream logFileName logFilePath := by
    unfold AsyncLogger.startDate
    split_ifs
    · exact ⟨h.fileName_eq, h.filePath_eq, h.isFile⟩
    · exact h
  have hreopen : ((a.startDate date).reopen date).Names stream logFileName logFilePath := by
    unfold AsyncLogger.reopen
    split_ifs
    · refine ⟨hstart.fileName_eq, hstart.filePath_eq, fun file hfile => ?_⟩
      cases hfile
      exact hstart.isFile_logFileName ..
    · exact hstart
  unfold AsyncLogger.openFile AsyncLogger.rotate
  split_ifs
  · refine ⟨hreopen.fileName_eq, hreopen.filePath_eq, fun file hfile => ?_⟩
    cases hfile
    exact hreopen.isFile_logFileName ..
  · exact hreopen

end Names

namespace Logger

/-- The messages of a stream that have not been written: those of the batch that the
writer holds, of the batches in its queue, of the vector that has been swapped out, and
of the buffer of the logger. -/
def inFlight (l : Logger) (stream : LogStream) : List Bytes :=
  (l.writer stream).held ++ (l.asyncLogger stream).buffer.flatten ++ l.sync.held stream ++
    l.buffer stream

def pushedTo (stream : LogStream) (steps : List LogStep) : List Bytes :=
  steps.flatMap fun
    | .pushLog msg => if stream = .rpc then [msg] else []
    | .pushAppLog msg => if stream = .app then [msg] else []
    | _ => []

def textOf (stream : LogStream) (writes : List LogWrite) : Bytes :=
  writes.flatMap fun w => if w.stream = stream then w.text else []

def textIn (file : Bytes) (writes : List LogWrite) : Bytes :=
  writes.flatMap fun w => if w.file = file then w.text else []

@[simp] theorem pushedTo_append (stream : LogStream) (steps steps' : List LogStep) :
    pushedTo stream (steps ++ steps') = pushedTo stream steps ++ pushedTo stream steps' :=
  List.flatMap_append

@[simp] theorem textOf_append (stream : LogStream) (writes writes' : List LogWrite) :
    textOf stream (writes ++ writes') = textOf stream writes ++ textOf stream writes' :=
  List.flatMap_append

@[simp] theorem textIn_append (file : Bytes) (writes writes' : List LogWrite) :
    textIn file (writes ++ writes') = textIn file writes ++ textIn file writes' :=
  List.flatMap_append

/-- Nothing is lost, reordered or written to the other stream. `files` are the contents
of the files before the logger has written to them. -/
structure Conserves (logFileName logFilePath : Bytes) (files : Bytes → Bytes) (l : Logger)
    (steps : List LogStep) (writes : List LogWrite) : Prop where
  /-- The messages that the writer is done with make the text it has written. -/
  conserved : ∀ stream, ∃ done, pushedTo stream steps = done ++ l.inFlight stream ∧
    textOf stream writes = done.flatten
  text_eq : ∀ stream,
    textOf stream writes ++ (l.inFlight stream).flatten = (pushedTo stream steps).flatten
  files_eq : ∀ file, l.files file = files file ++ textIn file writes
  separate : ∀ w ∈ writes, w.stream.IsFile logFileName logFilePath w.file ∧
    ∀ stream, stream.IsFile logFileName logFilePath w.file → stream = w.stream

section Steps

variable {l l' : Logger} {step : LogStep} {out : List LogWrite} {stream : LogStream}

/-- The steps of the logger and its threads one by one. -/
inductive Stepped (l : Logger) : LogStep → Logger → List LogWrite → Prop where
  | pushLog (msg : Bytes) : Stepped l (.pushLog msg) (l.push .rpc msg) []
  | pushAppLog (msg : Bytes) : Stepped l (.pushAppLog msg) (l.push .app msg) []
  | swap (dest : LogStream) (hnone : ∀ stream, l.sync.held stream = []) :
      Stepped l .syncLoop (l.swap dest) []
  | handOver (dest : LogStream) (temp : List Bytes) (hsync : l.sync = .swapped dest temp) :
      Stepped l .syncLoop (l.handOver dest temp) []
  | wait (dest : LogStream) (hplace : l.writer dest = .testing)
      (hbuffer : (l.asyncLogger dest).buffer = []) :
      Stepped l (.wait dest) (l.setWriter dest .waiting) []
  | wake (dest : LogStream) (hplace : l.writer dest = .waiting) :
      Stepped l (.wake dest) (l.setWriter dest .testing) []
  | take (dest : LogStream) (temp : List Bytes) (buffer : List (List Bytes))
      (hplace : l.writer dest = .testing)
      (hbuffer : (l.asyncLogger dest).buffer = temp :: buffer) :
      Stepped l (.take dest) ((l.setAsyncLogger dest
        { l.asyncLogger dest with buffer := buffer }).setWriter dest (.taken temp)) []
  | openFile (dest : LogStream) (date : Bytes) (size : ℤ) (temp : List Bytes)
      (hplace : l.writer dest = .taken temp) :
      Stepped l (.openFile dest date size) ((l.setAsyncLogger dest
        ((l.asyncLogger dest).openFile date size)).setWriter dest (.writing temp)) []
  | skip (dest : LogStream) (temp : List Bytes)
      (hplace : l.writer dest = .writing ([] :: temp)) :
      Stepped l (.write dest) (l.setWriter dest (.writing temp)) []
  | write (dest : LogStream) (msg : Bytes) (temp : List Bytes) (file : Bytes)
      (hplace : l.writer dest = .writing (msg :: temp))
      (hfile : (l.asyncLogger dest).fileHandler = some file) :
      Stepped l (.write dest)
        { l.setWriter dest (.writing temp) with
          files := Function.update l.files file (l.files file ++ msg) }
        [⟨dest, file, msg⟩]
  | finish (dest : LogStream) (hplace : l.writer dest = .writing []) :
      Stepped l (.finish dest) (l.setWriter dest
        (if (l.asyncLogger dest).stopFlag then .returned else .testing)) []
  | stop (dest : LogStream) :
      Stepped l (.stop dest) (l.setAsyncLogger dest (l.asyncLogger dest).stop) []

theorem stepped_of_syncLoop (l : Logger) : l.Stepped .syncLoop l.syncLoop [] := by
  unfold syncLoop
  cases hsync : l.sync with
  | outside => exact .swap .rpc fun stream => by rw [hsync]; rfl
  | swapped dest temp => exact .handOver dest temp hsync
  | between => exact .swap .app fun stream => by rw [hsync]; rfl

theorem stepped_of_take {dest : LogStream} (h : l.take dest = some l') :
    l.Stepped (.take dest) l' [] := by
  unfold take at h
  split at h
  · cases h
    exact .take dest _ _ ‹_› ‹_›
  · cases h

theorem stepped_of_write {dest : LogStream} (h : l.write dest = some (l', out)) :
    l.Stepped (.write dest) l' out := by
  unfold write at h
  split at h
  · rename_i msg temp hplace
    split_ifs at h with hempty
    · cases h
      exact .skip dest temp (hempty ▸ hplace)
    · rcases Option.map_eq_some_iff.1 h with ⟨file, hfile, heq⟩
      cases heq
      exact .write dest msg temp file hplace hfile
  · cases h

theorem stepped_of_step (hstep : machine.step l step = some (l', out)) :
    l.Stepped step l' out := by
  cases step with
  | pushLog msg =>
      cases hstep
      exact .pushLog msg
  | pushAppLog msg =>
      cases hstep
      exact .pushAppLog msg
  | syncLoop =>
      cases hstep
      exact stepped_of_syncLoop l
  | wait dest =>
      obtain ⟨⟨hplace, hbuffer⟩, heq⟩ := Option.ite_none_right_eq_some.1 hstep
      cases heq
      exact .wait dest hplace hbuffer
  | wake dest =>
      obtain ⟨hplace, heq⟩ := Option.ite_none_right_eq_some.1 hstep
      cases heq
      exact .wake dest hplace
  | take dest =>
      rcases Option.map_eq_some_iff.1 hstep with ⟨l₁, htake, heq⟩
      cases heq
      exact stepped_of_take htake
  | openFile dest date size =>
      simp only [machine] at hstep
      split at hstep
      · cases hstep
        exact .openFile dest date size _ ‹_›
      · cases hstep
  | write dest => exact stepped_of_write hstep
  | finish dest =>
      obtain ⟨hplace, heq⟩ := Option.ite_none_right_eq_some.1 hstep
      cases heq
      exact .finish dest hplace
  | stop dest =>
      cases hstep
      exact .stop dest

def Moves (l : Logger) (step : LogStep) (l' : Logger) (out : List LogWrite)
    (stream : LogStream) : Prop :=
  ∃ written, l.inFlight stream ++ pushedTo stream [step] = written ++ l'.inFlight stream ∧
    textOf stream out = written.flatten

theorem moves_of_eq (hin : l'.inFlight stream = l.inFlight stream)
    (hpush : pushedTo stream [step] = []) (htext : textOf stream out = []) :
    Moves l step l' out stream :=
  ⟨[], by rw [hin, hpush, List.append_nil, List.nil_append], htext⟩

theorem inFlight_push (l : Logger) (dest : LogStream) (msg : Bytes) (stream : LogStream) :
    (l.push dest msg).inFlight stream =
      l.inFlight stream ++ if stream = dest then [msg] else [] := by
  unfold inFlight push
  by_cases hto : stream = dest
  · subst hto
    simp only [Function.update_self, if_true, List.append_assoc]
  · simp only [Function.update_of_ne hto, if_neg hto, List.append_nil]

theorem inFlight_swap (hnone : l.sync.held stream = []) (dest : LogStream) :
    (l.swap dest).inFlight stream = l.inFlight stream := by
  unfold inFlight swap
  rw [hnone, List.append_nil]
  by_cases hto : stream = dest
  · subst hto
    simp only [SyncPlace.held, if_true, Function.update_self, List.append_nil]
  · simp only [SyncPlace.held, if_neg (Ne.symm hto), Function.update_of_ne hto, List.append_nil]

theorem inFlight_handOver {dest : LogStream} {temp : List Bytes}
    (hsync : l.sync = .swapped dest temp) :
    (l.handOver dest temp).inFlight stream = l.inFlight stream := by
  have hheld : (l.handOver dest temp).sync.held stream = [] := by
    cases dest <;> rfl
  have hbuffer : ((l.handOver dest temp).asyncLogger stream).buffer.flatten =
      (l.asyncLogger stream).buffer.flatten ++ if dest = stream then temp else [] := by
    unfold handOver
    by_cases hempty : temp = []
    · simp [hempty]
    · by_cases hto : stream = dest
      · subst hto
        simp [hempty, AsyncLogger.pushLogBuffer]
      · simp [hempty, Function.update_of_ne hto, Ne.symm hto]
  rw [inFlight, hheld, hbuffer, inFlight, hsync, SyncPlace.held, List.append_nil,
    List.append_assoc (l.writer stream).held]
  rfl

theorem inFlight_setWriter {dest : LogStream} {place : WriterPlace}
    (hheld : place.held = (l.writer dest).held) :
    (l.setWriter dest place).inFlight stream = l.inFlight stream := by
  unfold inFlight setWriter
  by_cases hdest : stream = dest
  · subst hdest
    simp only [Function.update_self, hheld]
  · simp only [Function.update_of_ne hdest]

theorem inFlight_setAsyncLogger {dest : LogStream} {asyncLogger : AsyncLogger}
    (hbuffer : asyncLogger.buffer = (l.asyncLogger dest).buffer) :
    (l.setAsyncLogger dest asyncLogger).inFlight stream = l.inFlight stream := by
  unfold inFlight setAsyncLogger
  by_cases hdest : stream = dest
  · subst hdest
    simp only [Function.update_self, hbuffer]
  · simp only [Function.update_of_ne hdest]

theorem buffer_openFile (a : AsyncLogger) (date : Bytes) (size : ℤ) :
    (a.openFile date size).buffer = a.buffer := by
  unfold AsyncLogger.openFile AsyncLogger.rotate AsyncLogger.reopen AsyncLogger.startDate
  split_ifs <;> rfl

theorem inFlight_take {dest : LogStream} {temp : List Bytes} {buffer : List (List Bytes)}
    (hplace : l.writer dest = .testing) (hbuffer : (l.asyncLogger dest).buffer = temp :: buffer) :
    ((l.setAsyncLogger dest { l.asyncLogger dest with buffer := buffer }).setWriter dest
      (.taken temp)).inFlight stream = l.inFlight stream := by
  unfold inFlight setWriter setAsyncLogger
  by_cases hdest : stream = dest
  · subst hdest
    simp only [Function.update_self, hplace, hbuffer, WriterPlace.held, List.nil_append,
      List.flatten_cons, List.append_assoc]
  · simp only [Function.update_of_ne hdest]

theorem inFlight_written {dest : LogStream} {msg : Bytes} {temp : List Bytes}
    (hplace : l.writer dest = .writing (msg :: temp)) (stream : LogStream) :
    l.inFlight stream = (if stream = dest then [msg] else []) ++
      (l.setWriter dest (.writing temp)).inFlight stream := by
  unfold inFlight setWriter
  by_cases hdest : stream = dest
  · subst hdest
    simp only [Function.update_self, hplace, WriterPlace.held, if_true, List.cons_append,
      List.nil_append]
  · simp only [Function.update_of_ne hdest, if_neg hdest, List.nil_append]

/-- A push adds its message at the back of the queue, a write takes the one at the front,
and no other step changes the queue. -/
theorem Stepped.moves (h : l.Stepped step l' out) (stream : LogStream) :
    Moves l step l' out stream := by
  cases h with
  | pushLog msg | pushAppLog msg =>
      refine ⟨[], ?_, rfl⟩
      rw [inFlight_push, pushedTo, List.flatMap_singleton, List.nil_append]
  | swap dest hnone => exact moves_of_eq (inFlight_swap (hnone stream) dest) rfl rfl
  | handOver dest temp hsync => exact moves_of_eq (inFlight_handOver hsync) rfl rfl
  | wait dest hplace | wake dest hplace =>
      exact moves_of_eq (inFlight_setWriter (by rw [hplace]; rfl)) rfl rfl
  | take dest temp buffer hplace hbuffer =>
      exact moves_of_eq (inFlight_take hplace hbuffer) rfl rfl
  | openFile dest date size temp hplace =>
      refine moves_of_eq ?_ rfl rfl
      rw [inFlight_setWriter, inFlight_setAsyncLogger (buffer_openFile _ date size)]
      change temp = (l.writer dest).held
      rw [hplace]
      rfl
  | skip dest temp hplace =>
      refine ⟨_, (List.append_nil _).trans (inFlight_written hplace stream), ?_⟩
      split_ifs <;> rfl
  | write dest msg temp file hplace hfile =>
      refine ⟨_, (List.append_nil _).trans (inFlight_written hplace stream), ?_⟩
      by_cases hdest : stream = dest
      · simp [textOf, hdest]
      · simp [textOf, hdest, Ne.symm hdest]
  | finish dest hplace =>
      refine moves_of_eq (inFlight_setWriter ?_) rfl rfl
      rw [hplace]
      split_ifs <;> rfl
  | stop dest => exact moves_of_eq (inFlight_setAsyncLogger rfl) rfl rfl

theorem Stepped.names {logFileName logFilePath : Bytes}
    (hnames : ∀ stream, (l.asyncLogger stream).Names stream logFileName logFilePath)
    (h : l.Stepped step l' out) (stream : LogStream) :
    (l'.asyncLogger stream).Names stream logFileName logFilePath := by
  have hset (dest : LogStream) {a : AsyncLogger} (ha : a.Names dest logFileName logFilePath) :
      ((l.setAsyncLogger dest a).asyncLogger stream).Names stream logFileName logFilePath := by
    change (Function.update l.asyncLogger dest a stream).Names stream logFileName logFilePath
    by_cases hdest : stream = dest
    · subst hdest
      rwa [Function.update_self]
    · rw [Function.update_of_ne hdest]
      exact hnames stream
  cases h with
  | handOver dest temp hsync =>
      unfold Logger.handOver
      split_ifs
      · obtain ⟨hname, hpath, hfile⟩ := hnames dest
        exact hset dest ⟨hname, hpath, hfile⟩
      · exact hnames stream
  | take dest | stop dest =>
      obtain ⟨hname, hpath, hfile⟩ := hnames dest
      exact hset dest ⟨hname, hpath, hfile⟩
  | openFile dest date size => exact hset dest ((hnames dest).openFile date size)
  | pushLog | pushAppLog | swap | wait | wake | skip | write | finish => exact hnames stream

/-- What is written goes to the end of the file that the writer has open, and no other
step changes a file. -/
theorem Stepped.files (h : l.Stepped step l' out) :
    (∀ file, l'.files file = l.files file ++ textIn file out) ∧
      ∀ w ∈ out, (l.asyncLogger w.stream).fileHandler = some w.file := by
  cases h with
  | write dest msg temp file hplace hfile =>
      refine ⟨fun file' => ?_, fun w hw => ?_⟩
      · by_cases hsame : file' = file
        · subst hsame
          simp [textIn, Function.update_self]
        · simp [textIn, Function.update_of_ne hsame, Ne.symm hsame]
      · rw [List.mem_singleton.1 hw]
        exact hfile
  | pushLog | pushAppLog | swap | handOver | wait | wake | take | openFile | skip | finish
  | stop => exact ⟨fun file => (List.append_nil _).symm, List.forall_mem_nil _⟩

/-- What the steps of a run keep. -/
structure Piped (logFileName logFilePath : Bytes) (files : Bytes → Bytes) (l : Logger)
    (steps : List LogStep) (writes : List LogWrite) : Prop where
  names : ∀ stream, (l.asyncLogger stream).Names stream logFileName logFilePath
  conserved : ∀ stream, ∃ done, pushedTo stream steps = done ++ l.inFlight stream ∧
    textOf stream writes = done.flatten
  files_eq : ∀ file, l.files file = files file ++ textIn file writes
  isFile : ∀ w ∈ writes, w.stream.IsFile logFileName logFilePath w.file

theorem Piped.of_step {logFileName logFilePath : Bytes} {files : Bytes → Bytes}
    {steps : List LogStep} {writes : List LogWrite}
    (h : Piped logFileName logFilePath files l steps writes)
    (hstep : machine.step l step = some (l', out)) :
    Piped logFileName logFilePath files l' (steps ++ [step]) (writes ++ out) := by
  have hstepped := stepped_of_step hstep
  obtain ⟨hfiles, hhandler⟩ := hstepped.files
  refine ⟨hstepped.names h.names, fun stream => ?_, fun file => ?_, fun w hw => ?_⟩
  · obtain ⟨done, hdone, htext⟩ := h.conserved stream
    obtain ⟨written, hmoves, hout⟩ := hstepped.moves stream
    refine ⟨done ++ written, ?_, ?_⟩
    · rw [pushedTo_append, hdone, List.append_assoc, hmoves, List.append_assoc]
    · rw [textOf_append, htext, hout, List.flatten_append]
  · rw [hfiles, h.files_eq, textIn_append, List.append_assoc]
  · rcases List.mem_append.1 hw with hw | hw
    · exact h.isFile w hw
    · exact (h.names w.stream).isFile w.file (hhandler w hw)

theorem Piped.conserves {logFileName logFilePath : Bytes} {files : Bytes → Bytes}
    {steps : List LogStep} {writes : List LogWrite}
    (h : Piped logFileName logFilePath files l steps writes) :
    Conserves logFileName logFilePath files l steps writes := by
  refine ⟨h.conserved, fun stream => ?_, h.files_eq, fun w hw => ⟨h.isFile w hw, ?_⟩⟩
  · obtain ⟨done, hdone, htext⟩ := h.conserved stream
    rw [htext, hdone, List.flatten_append]
  · exact fun stream hfile => hfile.unique (h.isFile w hw)

/-- In every run of the logger and its threads, nothing is lost, reordered or written to
the other stream. -/
theorem conserves_of_run {logFileName logFilePath : Bytes} {logMaxFileSize : ℤ}
    {files : Bytes → Bytes} {steps : List LogStep} {writes : List (List LogWrite)}
    (hrun : machine.run (new logFileName logFilePath logMaxFileSize files) steps =
      some (l, writes)) : Conserves logFileName logFilePath files l steps writes.flatten := by
  have hstart : Piped logFileName logFilePath files
      (new logFileName logFilePath logMaxFileSize files) [] [] := by
    refine ⟨fun stream => ⟨rfl, rfl, fun file hfile => ?_⟩, fun stream => ⟨[], rfl, rfl⟩,
      fun file => (List.append_nil _).symm, List.forall_mem_nil _⟩
    cases hfile
  have hkeeps : Piped logFileName logFilePath files l steps writes.flatten :=
    Machine.run_recorded (I := fun l steps writes =>
      Piped logFileName logFilePath files l steps writes.flatten)
      (fun l steps writes step l' out h hstep => by
        rw [List.flatten_append, List.flatten_singleton]
        exact h.of_step hstep) hstart hrun
  exact hkeeps.conserves

end Steps

/-- Two messages of the framework, one of which has been written, and one of the
application, which is still in its queue. -/
theorem conserves_of_run_two :
    let steps : List LogStep :=
      [.wait .rpc, .pushLog (ascii "first\n"), .pushAppLog (ascii "app\n"),
        .syncLoop, .pushLog (ascii "second\n"), .syncLoop, .syncLoop, .wake .rpc, .take .rpc,
        .syncLoop, .openFile .rpc (ascii "20231225") 0, .write .rpc, .finish .rpc]
    let writes : List (List LogWrite) := [[], [], [], [], [], [], [], [], [], [], [],
      [⟨.rpc, ascii "../log/test_rpc_20231225_log.0", ascii "first\n"⟩], []]
    ∃ l, machine.run (new (ascii "test") (ascii "../log/") 1000000 fun _ => []) steps =
        some (l, writes) ∧
      Conserves (ascii "test") (ascii "../log/") (fun _ => []) l steps writes.flatten := by
  intro steps writes
  have hwrites : (machine.run (new (ascii "test") (ascii "../log/") 1000000 fun _ => [])
      steps).map Prod.snd = some writes := by decide +kernel
  rcases Option.map_eq_some_iff.1 hwrites with ⟨⟨l, writes'⟩, hrun, heq⟩
  change writes' = writes at heq
  subst heq
  exact ⟨l, hrun, conserves_of_run hrun⟩

end Logger

end Rocket
