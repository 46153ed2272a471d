import Rocket.Common.Log
import Rocket.Foundation.Decimal
import Rocket.Foundation.History

/-!
# Log rotation

One thread writes the batches of an asynchronous logger. Each goes to the file of its date
that is open, and the next file is opened when this one has become too large. The number of
the file is incremented after it has been read, so the file with the number 0 is opened
a second time and gets one more batch; all other files are left in time.

All files are absent at first, `ftell` gives the size of the file that is open, and the clock
does not go back.
-/

namespace Rocket

open Foundation

/-- A batch, and the date on which the loop has taken it. -/
structure LogBatch where
  date : Bytes
  messages : List Bytes
  deriving DecidableEq, Repr

def LogBatch.text (b : LogBatch) : Bytes := b.messages.flatten

/-- An asynchronous logger, and the files by their names. -/
structure LogFiles where
  asyncLogger : AsyncLogger
  files : Bytes → Bytes := fun _ => []

namespace LogFiles

def new (fileName filePath : Bytes) (maxFileSize : ℤ) : LogFiles where
  asyncLogger := { fileName := fileName, filePath := filePath, maxFileSize := maxFileSize }

/-- A round of `AsyncLogger::loop` behind the lock, with the file that the batch is written
to. -/
def loop (l : LogFiles) (batch : LogBatch) : Option (LogFiles × Bytes) := do
  let opened ← ((l.asyncLogger.startDate batch.date).reopen batch.date).fileHandler
  let asyncLogger := l.asyncLogger.openFile batch.date (l.files opened).length
  let file ← asyncLogger.fileHandler
  some ({
    asyncLogger := asyncLogger
    files := Function.update l.files file (l.files file ++ batch.text) }, file)

def machine : Machine LogFiles LogBatch Bytes where
  step l batch := if l.asyncLogger.date ≤ batch.date then l.loop batch else none

/-- The batches of a date, with their files. -/
def written (date : Bytes) (h : List (LogBatch × Bytes)) : List (LogBatch × Bytes) :=
  h.filter fun p => p.1.date = date

def textIn (file : Bytes) (h : List (LogBatch × Bytes)) : Bytes :=
  h.flatMap fun p => if p.2 = file then p.1.text else []

/-- A file that has got a batch before, and is too large, gets no other one. -/
def Within (max : ℤ) (before : List (LogBatch × Bytes)) (p : LogBatch × Bytes) : Prop :=
  p.2 ∈ before.map Prod.snd → (textIn p.2 before).length ≤ max

/-- The numbers 0, 1, 2, ... one after the other, each for any number of batches: none is left
out, and none comes back after the next one. -/
def Consecutive : List ℕ → Prop :=
  AtEach fun before no =>
    match before.getLast? with
    | none => no = 0
    | some last => no = last ∨ no = last + 1

/-- The files of the batches of a date have these numbers. -/
def Numbered (name : Bytes → ℕ → Bytes) (date : Bytes) (h : List (LogBatch × Bytes))
    (nos : List ℕ) : Prop :=
  Consecutive nos ∧ (written date h).map Prod.snd = nos.map (name date)

/-- Each file is left when it has become too large, a batch goes to a file of its date, the
numbers of a date are used one after the other, and the files of a date in the order of their
numbers are what has been written on this date. -/
structure Rotates (name : Bytes → ℕ → Bytes) (max : ℤ) (l : LogFiles)
    (h : List (LogBatch × Bytes)) : Prop where
  within : AtEach (Within max) h
  numbered : ∀ date, ∃ nos, Numbered name date h nos
  concat : ∀ date m, (∀ p ∈ written date h, ∃ no < m, p.2 = name date no) →
    (List.range m).flatMap (fun no => l.files (name date no)) =
      (written date h).flatMap fun p => p.1.text

/-- The file that is open is not the one with the number 0, or is of another date, or is not
yet too large. -/
def Rotatable (l : LogFiles) (batch : LogBatch) : Prop :=
  ∀ file ∈ l.asyncLogger.fileHandler, batch.date = l.asyncLogger.date → l.asyncLogger.no = 0 →
    (l.files file).length ≤ l.asyncLogger.maxFileSize

instance (l : LogFiles) (batch : LogBatch) : Decidable (l.Rotatable batch) :=
  inferInstanceAs (Decidable (∀ file ∈ l.asyncLogger.fileHandler, _ → _ → _))

end LogFiles

theorem ascii_toString (n : ℕ) : ascii (toString n) = decimalText n := by
  rw [ascii, decimalText, ← Nat.toList_repr]
  rfl

theorem AsyncLogger.logFileName_inj {a : AsyncLogger} {date date' : Bytes} {no no' : ℕ}
    (h : a.logFileName date no = a.logFileName date' no') : date = date' ∧ no = no' := by
  have hdot (n : ℕ) : (46 : UInt8) ∉ decimalText n := fun hmem =>
    absurd (isDigit_of_mem_decimalText hmem) (by decide)
  have hsplit (date : Bytes) (no : ℕ) : ascii "_" ++ date ++ ascii "_log." ++ ascii (toString no) =
      (ascii "_" ++ date ++ ascii "_log") ++ 46 :: decimalText no := by
    rw [ascii_toString, show ascii "_log." = ascii "_log" ++ [46] from rfl]
    simp only [List.append_assoc, List.singleton_append]
  have hrest := List.append_cancel_left (List.append_cancel_left h)
  rw [hsplit, hsplit] at hrest
  obtain ⟨hdate, hno⟩ := append_cons_inj_right (hdot no) (hdot no') hrest
  refine ⟨List.append_cancel_left (List.append_cancel_right hdate), ?_⟩
  rw [← decimalValue_decimalText no, hno, decimalValue_decimalText]

namespace LogFiles

section History

variable {name : Bytes → ℕ → Bytes} {max : ℤ} {h : List (LogBatch × Bytes)}
  {p : LogBatch × Bytes} {nos : List ℕ} {no m : ℕ} {date file : Bytes}

theorem written_append_singleton : written date (h ++ [p]) =
    written date h ++ if p.1.date = date then [p] else [] := by
  rw [written, List.filter_append, ← written, List.filter_singleton]
  by_cases hdate : p.1.date = date <;> simp [hdate]

theorem textIn_append_singleton : textIn file (h ++ [p]) =
    textIn file h ++ if p.2 = file then p.1.text else [] := by
  rw [textIn, List.flatMap_append, ← textIn, List.flatMap_singleton]

theorem textIn_eq_nil (hfile : file ∉ h.map Prod.snd) : textIn file h = [] :=
  List.flatMap_eq_nil_iff.2 fun _ hp => if_neg fun heq => hfile (List.mem_map.2 ⟨_, hp, heq⟩)

theorem Consecutive.pairwise (h : Consecutive nos) : nos.Pairwise (· ≤ ·) := by
  refine AtEach.pairwise (fun _ _ _ => Nat.le_trans) (h.imp fun before no hno last hlast => ?_)
  rw [Option.mem_def] at hlast
  simp only [hlast] at hno
  omega

theorem Numbered.append_singleton (h' : Numbered name date h nos)
    (hnext : Consecutive (nos ++ [no])) (hdate : p.1.date = date) (hfile : p.2 = name date no) :
    Numbered name date (h ++ [p]) (nos ++ [no]) := by
  refine ⟨hnext, ?_⟩
  rw [written_append_singleton, if_pos hdate, List.map_append, h'.2, List.map_append,
    List.map_singleton, List.map_singleton, hfile]

theorem flatMap_range_append {f g : ℕ → Bytes} {text : Bytes} (hlt : no < m)
    (hempty : ∀ k, no < k → f k = []) (hself : g no = f no ++ text)
    (hother : ∀ k, k ≠ no → g k = f k) :
    (List.range m).flatMap g = (List.range m).flatMap f ++ text := by
  obtain ⟨j, rfl⟩ : ∃ j, m = no + 1 + j := ⟨m - (no + 1), by omega⟩
  have hrest (k : ℕ) (hk : k ∈ (List.range j).map (no + 1 + ·)) : f k = [] ∧ g k = [] := by
    obtain ⟨i, -, rfl⟩ := List.mem_map.1 hk
    have hf := hempty (no + 1 + i) (by omega)
    exact ⟨hf, (hother _ (by omega)).trans hf⟩
  have hbefore : (List.range no).flatMap g = (List.range no).flatMap f :=
    List.flatMap_congr fun k hk => hother k (List.mem_range.1 hk).ne
  rw [List.range_add, List.flatMap_append, List.flatMap_append,
    List.flatMap_eq_nil_iff.2 fun k hk => (hrest k hk).1,
    List.flatMap_eq_nil_iff.2 fun k hk => (hrest k hk).2, List.range_succ, List.flatMap_append,
    List.flatMap_append, List.flatMap_singleton, List.flatMap_singleton, hbefore, hself]
  simp only [List.append_nil, List.append_assoc]

theorem flatMap_textIn (hname : ∀ no no', name date no = name date no' → no = no')
    (hfiles : h.map Prod.snd = nos.map (name date)) (hnos : Consecutive nos)
    (hlt : ∀ no ∈ nos, no < m) :
    (List.range m).flatMap (fun no => textIn (name date no) h) = h.flatMap fun p => p.1.text := by
  induction h using List.reverseRecOn generalizing nos with
  | nil => exact List.flatMap_eq_nil_iff.2 fun _ _ => rfl
  | append_singleton h p ih =>
      rw [List.map_append, List.map_singleton] at hfiles
      obtain ⟨before, last, rfl, hbefore, hlast⟩ := List.append_eq_map_iff.1 hfiles
      obtain ⟨no, hno, hp⟩ := List.map_eq_singleton_iff.1 hlast
      subst hno
      obtain ⟨hcons, -⟩ := atEach_append_singleton.1 hnos
      have hle := (List.pairwise_append.1 hnos.pairwise).2.2
      rw [List.flatMap_append, List.flatMap_singleton, ← ih hbefore.symm hcons fun no hno =>
        hlt no (List.mem_append_left _ hno)]
      refine flatMap_range_append (hlt no (by simp)) (fun k hk => textIn_eq_nil ?_) ?_
        (fun k hk => ?_)
      · rw [← hbefore]
        rintro hmem
        obtain ⟨no', hno', heq⟩ := List.mem_map.1 hmem
        have hle' := hle no' hno' no (List.mem_singleton_self _)
        have heq' := hname no' k heq
        omega
      · rw [textIn_append_singleton, if_pos hp.symm]
      · rw [textIn_append_singleton, if_neg fun heq => hk (hname k no (heq.symm.trans hp.symm)),
          List.append_nil]

end History

section Opened

variable {name : Bytes → ℕ → Bytes} {max : ℤ} {date : Bytes} {no : ℕ} {a : AsyncLogger}

/-- The file with the number `no` is open. The number 0 may be the next one as well. -/
structure Opened (name : Bytes → ℕ → Bytes) (max : ℤ) (date : Bytes) (no : ℕ)
    (a : AsyncLogger) : Prop where
  logFileName_eq : a.logFileName = name
  maxFileSize_eq : a.maxFileSize = max
  date_eq : a.date = date
  fileHandler_eq : a.fileHandler = some (name date no)
  reopenFlag_eq : a.reopenFlag = false
  no_eq : a.no = no + 1 ∨ a.no = 0 ∧ no = 0

theorem Opened.reopen_startDate (h : Opened name max date no a) :
    (a.startDate date).reopen date = a := by
  have hstart : a.startDate date = a := if_neg (not_not.2 h.date_eq.symm)
  rw [hstart]
  exact if_neg (by simp [h.fileHandler_eq, h.reopenFlag_eq])

theorem Opened.openFile_of_le (h : Opened name max date no a) {size : ℤ} (hsize : size ≤ max) :
    a.openFile date size = a := by
  rw [AsyncLogger.openFile, h.reopen_startDate]
  exact if_neg (by rw [h.maxFileSize_eq]; omega)

theorem Opened.openFile_of_lt (h : Opened name max date no a) {size : ℤ} (hsize : max < size) :
    Opened name max date a.no (a.openFile date size) := by
  have heq : a.openFile date size =
      { a with fileHandler := some (a.logFileName date a.no), no := a.no + 1
               reopenFlag := false } := by
    rw [AsyncLogger.openFile, h.reopen_startDate]
    exact if_pos (by rw [h.maxFileSize_eq]; omega)
  rw [heq, h.logFileName_eq]
  exact ⟨h.logFileName_eq, h.maxFileSize_eq, h.date_eq, rfl, rfl, Or.inl rfl⟩

theorem reopen_startDate_of_new (hname : a.logFileName = name) (hmax : a.maxFileSize = max)
    (hnew : a.fileHandler = none ∧ a.no = 0 ∨ date ≠ a.date) :
    Opened name max date 0 ((a.startDate date).reopen date) ∧
      ((a.startDate date).reopen date).no = 0 := by
  have hstart : (a.startDate date).logFileName = name ∧ (a.startDate date).maxFileSize = max ∧
      (a.startDate date).date = date ∧ (a.startDate date).no = 0 ∧
      ((a.startDate date).fileHandler = none ∨ (a.startDate date).reopenFlag = true) := by
    rw [AsyncLogger.startDate]
    by_cases hdate : date = a.date
    · obtain ⟨hnone, hno⟩ := hnew.resolve_right (not_not.2 hdate)
      rw [if_neg (not_not.2 hdate)]
      exact ⟨hname, hmax, hdate.symm, hno, Or.inl hnone⟩
    · rw [if_pos hdate]
      exact ⟨hname, hmax, rfl, rfl, Or.inr rfl⟩
  obtain ⟨hname', hmax', hdate, hno, hopen⟩ := hstart
  rw [AsyncLogger.reopen, if_pos hopen, hno, hname']
  exact ⟨⟨hname', hmax', hdate, rfl, rfl, Or.inr ⟨rfl, rfl⟩⟩, rfl⟩

/-- The file with the number 0 stays open even if it is too large. -/
theorem openFile_of_new (hname : a.logFileName = name) (hmax : a.maxFileSize = max)
    (hnew : a.fileHandler = none ∧ a.no = 0 ∨ date ≠ a.date) (size : ℤ) :
    Opened name max date 0 (a.openFile date size) := by
  obtain ⟨hopened, hno⟩ := reopen_startDate_of_new hname hmax hnew
  have heq : a.openFile date size = ((a.startDate date).reopen date).openFile date size := by
    rw [AsyncLogger.openFile, AsyncLogger.openFile, hopened.reopen_startDate]
  rcases le_or_gt size max with hsize | hsize
  · rw [heq, hopened.openFile_of_le hsize]
    exact hopened
  · have hnext := hopened.openFile_of_lt hsize
    rwa [hno, ← heq] at hnext

end Opened

section Kept

variable {name : Bytes → ℕ → Bytes} {max : ℤ} {l : LogFiles} {batch : LogBatch}
  {h : List (LogBatch × Bytes)} {p : LogBatch × Bytes} {date : Bytes}

/-- The file that is open is the one that has been written to last. -/
structure Kept (name : Bytes → ℕ → Bytes) (max : ℤ) (l : LogFiles)
    (h : List (LogBatch × Bytes)) : Prop where
  logFileName_eq : l.asyncLogger.logFileName = name
  maxFileSize_eq : l.asyncLogger.maxFileSize = max
  files_eq : ∀ file, l.files file = textIn file h
  within : AtEach (Within max) h
  numbered : ∀ date, ∃ nos, Numbered name date h nos
  date_le : ∀ p ∈ h, p.1.date ≤ l.asyncLogger.date
  current : h = [] ∧ l.asyncLogger.fileHandler = none ∧ l.asyncLogger.no = 0 ∨
    ∃ nos no, Numbered name l.asyncLogger.date h (nos ++ [no]) ∧
      Opened name max l.asyncLogger.date no l.asyncLogger

theorem kept_new (fileName filePath : Bytes) (max : ℤ) :
    Kept (new fileName filePath max).asyncLogger.logFileName max (new fileName filePath max)
      [] where
  logFileName_eq := rfl
  maxFileSize_eq := rfl
  files_eq := fun _ => rfl
  within := atEach_nil
  numbered := fun _ => ⟨[], atEach_nil, rfl⟩
  date_le := fun _ hp => absurd hp List.not_mem_nil
  current := Or.inl ⟨rfl, rfl, rfl⟩

theorem Kept.name_inj (hk : Kept name max l h) {date' : Bytes} {no no' : ℕ}
    (heq : name date no = name date' no') : date = date' ∧ no = no' := by
  rw [← hk.logFileName_eq] at heq
  exact AsyncLogger.logFileName_inj heq

theorem Kept.exists_eq_name (hk : Kept name max l h) (hp : p ∈ h) :
    ∃ nos no, Numbered name p.1.date h nos ∧ no ∈ nos ∧ p.2 = name p.1.date no := by
  obtain ⟨nos, hnos⟩ := hk.numbered p.1.date
  have hmem : p.2 ∈ (written p.1.date h).map Prod.snd :=
    List.mem_map_of_mem (List.mem_filter.2 ⟨hp, decide_eq_true rfl⟩)
  rw [hnos.2] at hmem
  obtain ⟨no, hno, heq⟩ := List.mem_map.1 hmem
  exact ⟨nos, no, hnos, hno, heq.symm⟩

theorem Kept.mem_files_iff (hk : Kept name max l h) {nos : List ℕ} {no : ℕ}
    (hnos : Numbered name date h nos) : name date no ∈ h.map Prod.snd ↔ no ∈ nos := by
  constructor
  · intro hmem
    obtain ⟨p, hp, heq⟩ := List.mem_map.1 hmem
    obtain ⟨_, _, _, _, heq'⟩ := hk.exists_eq_name hp
    have hdate := (hk.name_inj (heq'.symm.trans heq)).1
    have hmem' : p.2 ∈ (written date h).map Prod.snd :=
      List.mem_map_of_mem (List.mem_filter.2 ⟨hp, decide_eq_true hdate⟩)
    rw [hnos.2] at hmem'
    obtain ⟨no', hno', heq''⟩ := List.mem_map.1 hmem'
    rwa [← (hk.name_inj (heq''.trans heq)).2]
  · intro hmem
    obtain ⟨p, hp, heq⟩ := List.mem_map.1 (hnos.2.symm ▸ List.mem_map_of_mem hmem)
    exact List.mem_map.2 ⟨p, (List.mem_filter.1 hp).1, heq⟩

theorem Kept.textIn_written (hk : Kept name max l h) (date : Bytes) (no : ℕ) :
    textIn (name date no) (written date h) = textIn (name date no) h := by
  have hdate : ∀ p ∈ h, p.2 = name date no → p.1.date = date := by
    intro p hp heq
    obtain ⟨_, no', _, _, heq'⟩ := hk.exists_eq_name hp
    exact (hk.name_inj (heq'.symm.trans heq)).1
  clear hk
  induction h using List.reverseRecOn with
  | nil => rfl
  | append_singleton h p ih =>
      rw [written_append_singleton, textIn_append_singleton,
        ← ih fun q hq => hdate q (List.mem_append_left _ hq)]
      by_cases hp : p.1.date = date
      · rw [if_pos hp, textIn_append_singleton]
      · rw [if_neg hp, List.append_nil,
          if_neg fun heq => hp (hdate p (List.mem_concat_self) heq),
          List.append_nil]

theorem Kept.rotates (hk : Kept name max l h) : Rotates name max l h where
  within := hk.within
  numbered := hk.numbered
  concat := by
    intro date m hlt
    obtain ⟨nos, hnos, hfiles⟩ := hk.numbered date
    have hinj : ∀ no no', name date no = name date no' → no = no' :=
      fun no no' heq => (hk.name_inj heq).2
    have hbound : ∀ no ∈ nos, no < m := by
      intro no hno
      obtain ⟨p, hp, heq⟩ := List.mem_map.1 (hfiles ▸ List.mem_map_of_mem hno)
      obtain ⟨no', hno', heq'⟩ := hlt p hp
      rw [hinj no no' (heq.symm.trans heq')]
      exact hno'
    rw [← flatMap_textIn hinj hfiles hnos hbound]
    exact List.flatMap_congr fun no _ => (hk.files_eq _).trans (hk.textIn_written date no).symm

/-- A round of the loop writes the batch to the file with the number `no`, after those with the
numbers `nos`, and leaves the logger as `a`. It keeps to the size iff it is not the one that
opens the file with the number 0 again. -/
structure Round (name : Bytes → ℕ → Bytes) (max : ℤ) (l : LogFiles)
    (h : List (LogBatch × Bytes)) (batch : LogBatch) (nos : List ℕ) (no : ℕ)
    (a : AsyncLogger) : Prop where
  numbered : Numbered name batch.date h nos
  next : Consecutive (nos ++ [no])
  opened : Opened name max batch.date no a
  loop_eq : l.loop batch = some ({
    asyncLogger := a
    files := Function.update l.files (name batch.date no)
      (l.files (name batch.date no) ++ batch.text) }, name batch.date no)
  rotatable_iff : l.Rotatable batch ↔ Within max h (batch, name batch.date no)

theorem Kept.append (hk : Kept name max l h) (hdate : l.asyncLogger.date ≤ batch.date)
    {nos : List ℕ} {no : ℕ} {a : AsyncLogger} (hround : Round name max l h batch nos no a)
    (hwithin : Within max h (batch, name batch.date no)) :
    Kept name max {
      asyncLogger := a
      files := Function.update l.files (name batch.date no)
        (l.files (name batch.date no) ++ batch.text) }
      (h ++ [(batch, name batch.date no)]) where
  logFileName_eq := hround.opened.logFileName_eq
  maxFileSize_eq := hround.opened.maxFileSize_eq
  files_eq := by
    intro file
    rw [textIn_append_singleton, ← hk.files_eq]
    by_cases heq : file = name batch.date no
    · subst heq
      rw [if_pos rfl]
      exact Function.update_self ..
    · rw [if_neg (Ne.symm heq), List.append_nil]
      exact Function.update_of_ne heq ..
  within := atEach_append_singleton.2 ⟨hk.within, hwithin⟩
  numbered := by
    intro date
    by_cases heq : batch.date = date
    · subst heq
      exact ⟨_, hround.numbered.append_singleton hround.next rfl rfl⟩
    · obtain ⟨nos', hnos', hfiles⟩ := hk.numbered date
      refine ⟨nos', hnos', ?_⟩
      rw [written_append_singleton, if_neg heq, List.append_nil, hfiles]
  date_le := by
    intro p hp
    rw [hround.opened.date_eq]
    rcases List.mem_append.1 hp with hp | hp
    · exact List.le_trans (hk.date_le p hp) hdate
    · rw [List.mem_singleton.1 hp]
      exact List.le_refl _
  current := by
    rw [hround.opened.date_eq]
    exact Or.inr ⟨nos, no, hround.numbered.append_singleton hround.next rfl rfl, hround.opened⟩

theorem loop_eq {no no' : ℕ}
    (hopened : Opened name max batch.date no
      ((l.asyncLogger.startDate batch.date).reopen batch.date))
    (hopen : Opened name max batch.date no'
      (l.asyncLogger.openFile batch.date (l.files (name batch.date no)).length)) :
    l.loop batch = some ({
      asyncLogger := l.asyncLogger.openFile batch.date (l.files (name batch.date no)).length
      files := Function.update l.files (name batch.date no')
        (l.files (name batch.date no') ++ batch.text) }, name batch.date no') := by
  simp only [loop, hopened.fileHandler_eq, Option.bind_eq_bind, Option.bind_some,
    hopen.fileHandler_eq]

theorem Kept.round_of_new (hk : Kept name max l h) (hdate : l.asyncLogger.date ≤ batch.date)
    (hnew : l.asyncLogger.fileHandler = none ∧ l.asyncLogger.no = 0 ∨
      batch.date ≠ l.asyncLogger.date) :
    Round name max l h batch [] 0
      (l.asyncLogger.openFile batch.date (l.files (name batch.date 0)).length) := by
  have hnone : ∀ p ∈ h, p.1.date ≠ batch.date := by
    intro p hp heq
    rcases hk.current with ⟨rfl, -, -⟩ | ⟨_, _, -, hopened⟩
    · exact List.not_mem_nil hp
    · have hne := hnew.resolve_left fun hnone => by
        simpa [hopened.fileHandler_eq] using hnone.1
      exact hne (List.le_antisymm (heq ▸ hk.date_le p hp) hdate)
  have hnos : Numbered name batch.date h [] :=
    ⟨atEach_nil, List.map_eq_nil_iff.2 (List.filter_eq_nil_iff.2 fun p hp =>
      fun heq => hnone p hp (of_decide_eq_true heq))⟩
  have hopen := openFile_of_new hk.logFileName_eq hk.maxFileSize_eq hnew
  have hopened := (reopen_startDate_of_new hk.logFileName_eq hk.maxFileSize_eq hnew).1
  refine ⟨hnos, atEach_append_singleton.2 ⟨atEach_nil, rfl⟩, hopen _,
    LogFiles.loop_eq hopened (hopen _), iff_of_true ?_ fun hmem => ?_⟩
  · intro file hfile heq
    exact absurd hfile (by simp [(hnew.resolve_right (not_not.2 heq)).1])
  · exact absurd ((hk.mem_files_iff hnos).1 hmem) List.not_mem_nil

section Current

variable {nos : List ℕ} {last : ℕ}

theorem Kept.round_of_le (hk : Kept name max l h)
    (hnos : Numbered name batch.date h (nos ++ [last]))
    (hopened : Opened name max batch.date last l.asyncLogger)
    (hsize : ((l.files (name batch.date last)).length : ℤ) ≤ max) :
    Round name max l h batch (nos ++ [last]) last l.asyncLogger := by
  have hreopen := hopened.reopen_startDate.symm ▸ hopened
  have heq := hopened.openFile_of_le hsize
  have hloop := LogFiles.loop_eq hreopen (heq.symm ▸ hopened)
  rw [heq] at hloop
  refine ⟨hnos, atEach_append_singleton.2 ⟨hnos.1, by simp⟩, hopened, hloop,
    iff_of_true ?_ fun _ => ?_⟩
  · intro file hfile _ _
    rw [hopened.fileHandler_eq, Option.mem_some_iff] at hfile
    rw [← hfile, hk.maxFileSize_eq]
    exact hsize
  · rw [← hk.files_eq]
    exact hsize

theorem Kept.round_of_lt (hk : Kept name max l h) (hdate : batch.date = l.asyncLogger.date)
    (hnos : Numbered name batch.date h (nos ++ [last]))
    (hopened : Opened name max batch.date last l.asyncLogger)
    (hsize : max < ((l.files (name batch.date last)).length : ℤ)) :
    Round name max l h batch (nos ++ [last]) l.asyncLogger.no
      (l.asyncLogger.openFile batch.date (l.files (name batch.date last)).length) := by
  have hreopen := hopened.reopen_startDate.symm ▸ hopened
  have hopen := hopened.openFile_of_lt hsize
  have hnext : Consecutive (nos ++ [last] ++ [l.asyncLogger.no]) := by
    refine atEach_append_singleton.2 ⟨hnos.1, ?_⟩
    rcases hopened.no_eq with hno | ⟨hno, rfl⟩ <;> simp [hno]
  refine ⟨hnos, hnext, hopen, LogFiles.loop_eq hreopen hopen, ?_⟩
  rcases hopened.no_eq with hno | ⟨hno, rfl⟩
  · refine iff_of_true (fun _ _ _ hzero => by omega) fun hmem => ?_
    have hle : l.asyncLogger.no ≤ last := by
      rcases List.mem_append.1 ((hk.mem_files_iff hnos).1 hmem) with hmem | hmem
      · exact (List.pairwise_append.1 hnos.1.pairwise).2.2 _ hmem last
          (List.mem_singleton_self last)
      · exact (List.mem_singleton.1 hmem).le
    omega
  · rw [hno]
    refine iff_of_false (fun hrotatable => ?_) fun hwithin => ?_
    · have hle := hrotatable _ hopened.fileHandler_eq hdate hno
      rw [hk.maxFileSize_eq] at hle
      omega
    · have hle := hwithin ((hk.mem_files_iff hnos).2 List.mem_concat_self)
      rw [← hk.files_eq] at hle
      exact absurd hle (not_le.2 hsize)

end Current

theorem Kept.exists_round (hk : Kept name max l h) (hdate : l.asyncLogger.date ≤ batch.date) :
    ∃ nos no a, Round name max l h batch nos no a := by
  by_cases hnew : l.asyncLogger.fileHandler = none ∧ l.asyncLogger.no = 0 ∨
      batch.date ≠ l.asyncLogger.date
  · exact ⟨_, _, _, hk.round_of_new hdate hnew⟩
  · rw [not_or, not_not] at hnew
    obtain ⟨nos, last, hnos, hopened⟩ := hk.current.resolve_left fun h => hnew.1 h.2
    rw [← hnew.2] at hnos hopened
    rcases le_or_gt ((l.files (name batch.date last)).length : ℤ) max with hsize | hsize
    · exact ⟨_, _, _, hk.round_of_le hnos hopened hsize⟩
    · exact ⟨_, _, _, hk.round_of_lt hnew.2 hnos hopened hsize⟩

theorem Kept.step (hk : Kept name max l h) {l' : LogFiles} {file : Bytes}
    (hstep : machine.step l batch = some (l', file)) :
    (l.Rotatable batch ↔ Within max h (batch, file)) ∧
      (l.Rotatable batch → Kept name max l' (h ++ [(batch, file)])) := by
  obtain ⟨hdate, hloop⟩ : l.asyncLogger.date ≤ batch.date ∧ l.loop batch = some (l', file) := by
    simpa only [machine, Option.ite_none_right_eq_some] using hstep
  obtain ⟨nos, no, a, hround⟩ := hk.exists_round hdate
  cases hround.loop_eq.symm.trans hloop
  exact ⟨hround.rotatable_iff, fun hrotatable =>
    hk.append hdate hround (hround.rotatable_iff.1 hrotatable)⟩

theorem Kept.exists_step (hk : Kept name max l h) (hdate : l.asyncLogger.date ≤ batch.date) :
    ∃ l' file, machine.step l batch = some (l', file) := by
  obtain ⟨nos, no, a, hround⟩ := hk.exists_round hdate
  exact ⟨_, _, (if_pos hdate).trans hround.loop_eq⟩

end Kept

/-- Along the batches of a logger, the files are left in time and so on iff no batch comes
while the file with the number 0 is open and too large. -/
theorem along_rotates_iff_meets (fileName filePath : Bytes) (max : ℤ)
    (batches : List LogBatch) :
    machine.Along
        (fun l batches files =>
          Rotates (new fileName filePath max).asyncLogger.logFileName max l (batches.zip files))
        (new fileName filePath max) batches ↔
      machine.Meets Rotatable (new fileName filePath max) batches := by
  have hzip {batches : List LogBatch} {files : List Bytes} (batch : LogBatch) (file : Bytes)
      (hlength : files.length = batches.length) :
      (batches ++ [batch]).zip (files ++ [file]) = batches.zip files ++ [(batch, file)] := by
    rw [List.zip_append hlength.symm]
    rfl
  refine Machine.along_iff_meets
    (I := fun l batches files => files.length = batches.length ∧
      Kept (new fileName filePath max).asyncLogger.logFileName max l (batches.zip files))
    (fun l batches files h => h.2.rotates) ?_ ?_ ⟨rfl, kept_new fileName filePath max⟩
  · rintro l batches files batch ⟨hlength, hk⟩
    constructor
    · intro hrotatable l' file hstep
      rw [hzip batch file hlength]
      exact ((hk.step hstep).2 hrotatable).rotates
    · intro hrotates file hfile heq
      have hdate : l.asyncLogger.date ≤ batch.date := heq ▸ List.le_refl _
      obtain ⟨l', file', hstep⟩ := hk.exists_step hdate
      have hwithin := (hrotates l' file' hstep).within
      rw [hzip batch file' hlength, atEach_append_singleton] at hwithin
      exact (hk.step hstep).1.2 hwithin.2 file hfile heq
  · rintro l batches files batch l' file ⟨hlength, hk⟩ hrotatable hstep
    rw [hzip batch file hlength]
    exact ⟨by simp [hlength], (hk.step hstep).2 hrotatable⟩

/-- The second batch of a date goes to the file that the first one has made too large. -/
theorem not_rotates_dates : ¬ machine.Along
    (fun l batches files => Rotates (new (ascii "rocket") (ascii "log/") 3).asyncLogger.logFileName
      3 l (batches.zip files))
    (new (ascii "rocket") (ascii "log/") 3)
    [⟨ascii "20240101", [ascii "four"]⟩, ⟨ascii "20240101", [ascii "more"]⟩] := by
  intro h
  have hrun : (machine.run (new (ascii "rocket") (ascii "log/") 3)
      [⟨ascii "20240101", [ascii "four"]⟩, ⟨ascii "20240101", [ascii "more"]⟩]).map Prod.snd =
      some [ascii "log/rocket_20240101_log.0", ascii "log/rocket_20240101_log.0"] := by
    decide +kernel
  obtain ⟨l, hrotates⟩ := h.exists_of_map hrun
  exact absurd (hrotates.within 1 (by decide) (by decide)) (by decide)

end LogFiles

section Writer

variable {l : Logger} {stream : LogStream} {temp : List Bytes} {file : Bytes}

theorem Logger.exists_run_write (hwriter : l.writer stream = .writing temp)
    (hfile : (l.asyncLogger stream).fileHandler = some file) :
    ∃ t out, Logger.machine.run l (List.replicate temp.length (.write stream)) = some (t, out) ∧
      t.writer stream = .writing [] ∧ t.asyncLogger = l.asyncLogger ∧
      t.files = Function.update l.files file (l.files file ++ temp.flatten) := by
  induction temp generalizing l with
  | nil => exact ⟨l, [], rfl, hwriter, rfl, by simp⟩
  | cons msg temp ih =>
      obtain ⟨l', out, hwrite, hwriter', hasync, hfiles⟩ :
          ∃ l' out, l.write stream = some (l', out) ∧ l'.writer stream = .writing temp ∧
            l'.asyncLogger = l.asyncLogger ∧
            l'.files = Function.update l.files file (l.files file ++ msg) := by
        rw [Logger.write, hwriter]
        by_cases hmsg : msg = []
        · refine ⟨_, _, if_pos hmsg, Function.update_self .., rfl, ?_⟩
          simp [hmsg, Logger.setWriter]
        · simp only [if_neg hmsg, hfile, Option.map_some]
          exact ⟨_, _, rfl, Function.update_self .., rfl, rfl⟩
      obtain ⟨t, out', hrun, ht, htasync, htfiles⟩ := ih hwriter' (hasync ▸ hfile)
      refine ⟨t, out :: out', Machine.run_cons hwrite hrun, ht, htasync.trans hasync, ?_⟩
      rw [htfiles, hfiles, Function.update_self, Function.update_idem, List.append_assoc,
        List.flatten_cons]

/-- The thread of a logger does with the batch that it has taken what `LogFiles.loop` does,
when `ftell` gives the size of the file that is open. -/
theorem Logger.exists_run_loop {date : Bytes} {t : LogFiles}
    (hwriter : l.writer stream = .taken temp)
    (hloop : LogFiles.loop ⟨l.asyncLogger stream, l.files⟩ ⟨date, temp⟩ = some (t, file)) :
    ∃ opened l' out, Logger.machine.run l
        (.openFile stream date (l.files opened).length ::
          List.replicate temp.length (.write stream)) = some (l', out) ∧
      (((l.asyncLogger stream).startDate date).reopen date).fileHandler = some opened ∧
      l'.writer stream = .writing [] ∧ l'.asyncLogger stream = t.asyncLogger ∧
      l'.files = t.files := by
  simp only [LogFiles.loop, Option.bind_eq_bind, Option.bind_eq_some_iff] at hloop
  obtain ⟨opened, hopened, file', hfile, heq⟩ := hloop
  cases heq
  have hstep : Logger.machine.step l (.openFile stream date (l.files opened).length) =
      some ((l.setAsyncLogger stream ((l.asyncLogger stream).openFile date
        (l.files opened).length)).setWriter stream (.writing temp), []) := by
    simp only [Logger.machine, hwriter]
  obtain ⟨l', out, hrun, hl', hasync, hfiles⟩ := Logger.exists_run_write
    (l := (l.setAsyncLogger stream ((l.asyncLogger stream).openFile date
      (l.files opened).length)).setWriter stream (.writing temp))
    (Function.update_self ..) (by simpa [Logger.setWriter, Logger.setAsyncLogger] using hfile)
  refine ⟨opened, l', [] :: out, Machine.run_cons hstep hrun, hopened, hl', ?_, hfiles⟩
  rw [hasync]
  simp [Logger.setWriter, Logger.setAsyncLogger]

end Writer

end Rocket
