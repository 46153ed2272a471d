import Mathlib.Logic.Function.Basic
import Rocket.Common.Util
import Rocket.Foundation.Machine

/-!
# Logger and AsyncLogger

Any thread pushes messages to one of the two streams of the logger. `syncLoop`, which
runs on the event loop of its timer, hands what has been pushed over to the two
asynchronous loggers, and each of these has a thread that writes the batches to a file.
A section under a mutex is one step.

A thread that waits for its condition may wake up at any time, signalled or not, and a
signal need not wake it; so the condition itself is left out. The date and the size that
the system reports come with the step that reads them, and every file can be opened. The
console output of a logger that writes no files is left out, and so is the overflow of the
number of a file, an `int`, behind 2^31 - 1.
-/

namespace Rocket

open Foundation

/-- `LogLevel` -/
inductive LogLevel where
  | unknown
  | debug
  | info
  | error
  deriving DecidableEq, Repr

def LogLevel.value : LogLevel → ℕ
  | .unknown => 0
  | .debug => 1
  | .info => 2
  | .error => 3

/-- The condition of `ERRORLOG`, on the level of the global logger. Above it the message is not
even formatted. -/
def LogLevel.logsErrors (level : LogLevel) : Bool := level.value ≤ LogLevel.debug.value

/-- The messages of the framework and those of the application. -/
inductive LogStream where
  | rpc
  | app
  deriving DecidableEq, Repr

/-- `AsyncLogger`. The file that is open is given by its name. -/
structure AsyncLogger where
  buffer : List (List Bytes) := []
  fileName : Bytes
  filePath : Bytes
  maxFileSize : ℤ
  date : Bytes := []
  fileHandler : Option Bytes := none
  reopenFlag : Bool := false
  no : ℕ := 0
  stopFlag : Bool := false
  deriving DecidableEq, Repr

namespace AsyncLogger

/-- `AsyncLogger::pushLogBuffer`. -/
def pushLogBuffer (l : AsyncLogger) (vec : List Bytes) : AsyncLogger :=
  { l with buffer := l.buffer ++ [vec] }

/-- `AsyncLogger::stop`. -/
def stop (l : AsyncLogger) : AsyncLogger := { l with stopFlag := true }

/-- The name of the log file with the number `no`. -/
def logFileName (l : AsyncLogger) (date : Bytes) (no : ℕ) : Bytes :=
  l.filePath ++ (l.fileName ++ (ascii "_" ++ date ++ ascii "_log." ++ ascii (toString no)))

/-- A new day starts at the number 0. -/
def startDate (l : AsyncLogger) (date : Bytes) : AsyncLogger :=
  if date ≠ l.date then { l with no := 0, reopenFlag := true, date := date } else l

def reopen (l : AsyncLogger) (date : Bytes) : AsyncLogger :=
  if l.fileHandler = none ∨ l.reopenFlag then
    { l with fileHandler := some (l.logFileName date l.no), reopenFlag := false }
  else l

/-- A file that is too large is left for the next one. The number is incremented after
it has been read, so the first file is opened a second time. -/
def rotate (l : AsyncLogger) (date : Bytes) (size : ℤ) : AsyncLogger :=
  if size > l.maxFileSize then
    { l with fileHandler := some (l.logFileName date l.no), no := l.no + 1, reopenFlag := false }
  else l

/-- The choice of the file for a batch, when `strftime` gives `date` and `ftell` returns
`size`. -/
def openFile (l : AsyncLogger) (date : Bytes) (size : ℤ) : AsyncLogger :=
  ((l.startDate date).reopen date).rotate date size

end AsyncLogger

/-- Where the thread of an asynchronous logger is in its loop: before it tests the
buffer; in the wait; with a batch for which it has not yet chosen the file; with the
messages of a batch that it has still to write; and behind the loop. -/
inductive WriterPlace where
  | testing
  | waiting
  | taken (temp : List Bytes)
  | writing (temp : List Bytes)
  | returned
  deriving DecidableEq, Repr

/-- Where `syncLoop` is: outside; with the vector it has swapped out of a stream; and
between the two streams. -/
inductive SyncPlace where
  | outside
  | swapped (stream : LogStream) (temp : List Bytes)
  | between
  deriving DecidableEq, Repr

/-- `Logger` with its two buffers, its two asynchronous loggers with their threads, the
run of `syncLoop`, and the files by their names. -/
structure Logger where
  buffer : LogStream → List Bytes := fun _ => []
  asyncLogger : LogStream → AsyncLogger
  writer : LogStream → WriterPlace := fun _ => .testing
  sync : SyncPlace := .outside
  files : Bytes → Bytes

/-- What the threads do. -/
inductive LogStep where
  | pushLog (msg : Bytes)
  | pushAppLog (msg : Bytes)
  | syncLoop
  | wait (stream : LogStream)
  | wake (stream : LogStream)
  | take (stream : LogStream)
  | openFile (stream : LogStream) (date : Bytes) (size : ℤ)
  | write (stream : LogStream)
  | finish (stream : LogStream)
  | stop (stream : LogStream)
  deriving DecidableEq, Repr

/-- A text written to a file, with the stream whose thread has written it. -/
structure LogWrite where
  stream : LogStream
  file : Bytes
  text : Bytes
  deriving DecidableEq, Repr

namespace LogStream

/-- What the constructor of `Logger` adds to the name of the log file. -/
def suffix : LogStream → Bytes
  | .rpc => ascii "_rpc"
  | .app => ascii "_app"

end LogStream

namespace Logger

/-- `Logger::Logger`, with the configuration of the log file. -/
def new (logFileName logFilePath : Bytes) (logMaxFileSize : ℤ) (files : Bytes → Bytes) :
    Logger where
  asyncLogger stream :=
    { fileName := logFileName ++ stream.suffix, filePath := logFilePath,
      maxFileSize := logMaxFileSize }
  files := files

def push (l : Logger) (stream : LogStream) (msg : Bytes) : Logger :=
  { l with buffer := Function.update l.buffer stream (l.buffer stream ++ [msg]) }

/-- `Logger::pushLog`. -/
def pushLog (l : Logger) (msg : Bytes) : Logger := l.push .rpc msg

/-- `Logger::pushAppLog`. -/
def pushAppLog (l : Logger) (msg : Bytes) : Logger := l.push .app msg

/-- `temp_vec.swap(m_buffer)` -/
def swap (l : Logger) (stream : LogStream) : Logger :=
  { l with
    buffer := Function.update l.buffer stream []
    sync := .swapped stream (l.buffer stream) }

def handOver (l : Logger) (stream : LogStream) (temp : List Bytes) : Logger :=
  { l with
    asyncLogger :=
      if temp ≠ [] then
        Function.update l.asyncLogger stream ((l.asyncLogger stream).pushLogBuffer temp)
      else l.asyncLogger
    sync := match stream with
      | .rpc => .between
      | .app => .outside }

/-- The next step of `Logger::syncLoop`. -/
def syncLoop (l : Logger) : Logger :=
  match l.sync with
  | .outside => l.swap .rpc
  | .swapped stream temp => l.handOver stream temp
  | .between => l.swap .app

def setWriter (l : Logger) (stream : LogStream) (place : WriterPlace) : Logger :=
  { l with writer := Function.update l.writer stream place }

def setAsyncLogger (l : Logger) (stream : LogStream) (asyncLogger : AsyncLogger) : Logger :=
  { l with asyncLogger := Function.update l.asyncLogger stream asyncLogger }

def take (l : Logger) (stream : LogStream) : Option Logger :=
  match l.writer stream, (l.asyncLogger stream).buffer with
  | .testing, temp :: buffer =>
      some ((l.setAsyncLogger stream { l.asyncLogger stream with buffer := buffer }).setWriter
        stream (.taken temp))
  | _, _ => none

def write (l : Logger) (stream : LogStream) : Option (Logger × List LogWrite) :=
  match l.writer stream with
  | .writing (msg :: temp) =>
      let l' := l.setWriter stream (.writing temp)
      if msg = [] then some (l', [])
      else (l.asyncLogger stream).fileHandler.map fun file =>
        ({ l' with files := Function.update l.files file (l.files file ++ msg) },
          [⟨stream, file, msg⟩])
  | _ => none

def machine : Machine Logger LogStep (List LogWrite) where
  step l
    | .pushLog msg => some (l.pushLog msg, [])
    | .pushAppLog msg => some (l.pushAppLog msg, [])
    | .syncLoop => some (l.syncLoop, [])
    | .wait stream =>
        if l.writer stream = .testing ∧ (l.asyncLogger stream).buffer = [] then
          some (l.setWriter stream .waiting, [])
        else none
    | .wake stream =>
        if l.writer stream = .waiting then some (l.setWriter stream .testing, []) else none
    | .take stream => (l.take stream).map fun l' => (l', [])
    | .openFile stream date size =>
        match l.writer stream with
        | .taken temp =>
            some ((l.setAsyncLogger stream ((l.asyncLogger stream).openFile date size)).setWriter
              stream (.writing temp), [])
        | _ => none
    | .write stream => l.write stream
    | .finish stream =>
        if l.writer stream = .writing [] then
          some (l.setWriter stream
            (if (l.asyncLogger stream).stopFlag then .returned else .testing), [])
        else none
    | .stop stream => some (l.setAsyncLogger stream (l.asyncLogger stream).stop, [])

end Logger

end Rocket
