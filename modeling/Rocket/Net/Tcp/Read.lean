import Rocket.Net.Tcp.TcpConnection

/-!
# What onRead keeps

A read that fills the free space of the in-buffer to its last cell is written
into the vector, but `moveWriteIndex` refuses to move behind it, and the next
read overwrites it. The readable bytes therefore grow by what the short reads
return, and by nothing else.
-/

namespace Rocket

open Foundation

namespace TcpConnection

def received (r : Hooked ReadResult) : Bytes :=
  match r.result with
  | .bytes bs => bs
  | _ => []

/-- The bytes that a read of fewer than `n` bytes returns. -/
def kept (n : ℕ) (r : Hooked ReadResult) : Bytes :=
  if (received r).length < n then received r else []

/-- The results of one call of `onRead` when every read asks for `n` bytes: reads
that fail or return all `n` bytes, and then a short read, the end of the stream
or `EAGAIN`. -/
inductive AnswersTo (n : ℕ) : List (Hooked ReadResult) → Prop
  | short {bs : Bytes} {o : Bool} (hne : bs ≠ []) (hlt : bs.length < n) :
      AnswersTo n [⟨.bytes bs, o⟩]
  | eof {o : Bool} : AnswersTo n [⟨.eof, o⟩]
  | eagain {o : Bool} : AnswersTo n [⟨.eagain, o⟩]
  | full {bs : Bytes} {o : Bool} {results : List (Hooked ReadResult)} (hlen : bs.length = n)
      (hrest : AnswersTo n results) : AnswersTo n (⟨.bytes bs, o⟩ :: results)
  | error {o : Bool} {results : List (Hooked ReadResult)} (hrest : AnswersTo n results) :
      AnswersTo n (⟨.error, o⟩ :: results)

/-- The number of bytes that `onRead` asks for: the free space of the in-buffer,
after growing it when it is full. -/
def room (b : TcpBuffer) : ℕ :=
  if b.writeIndex = b.buffer.length then 2 * b.buffer.length - (b.writeIndex - b.readIndex)
  else b.buffer.length - b.writeIndex

theorem length_kept_le (n : ℕ) (results : List (Hooked ReadResult)) :
    (results.flatMap (kept n)).length ≤ (results.flatMap received).length := by
  induction results with
  | nil => exact le_rfl
  | cons r results ih =>
      have hr : (kept n r).length ≤ (received r).length := by
        unfold kept
        split_ifs <;> simp
      simp only [List.flatMap_cons, List.length_append]
      omega

theorem kept_eq_received_iff {n : ℕ} (hn : 0 < n) (results : List (Hooked ReadResult)) :
    results.flatMap (kept n) = results.flatMap received ↔
      ∀ r ∈ results, (received r).length < n := by
  induction results with
  | nil => simp
  | cons r results ih =>
      rw [List.flatMap_cons, List.flatMap_cons, List.forall_mem_cons, ← ih]
      by_cases hshort : (received r).length < n
      · rw [kept, if_pos hshort, List.append_cancel_left_eq]
        exact (and_iff_right hshort).symm
      · refine iff_of_false (fun heq => ?_) fun h => hshort h.1
        have hle := length_kept_le n results
        have hlen := congrArg List.length heq
        rw [kept, if_neg hshort, List.nil_append, List.length_append] at hlen
        omega

section Loop

variable {b : TcpBuffer} {c : TcpConnection} {stale live spare : Bytes}

theorem growInBuffer_of_spare (h : b.Layout stale live spare) (hspare : 0 < spare.length)
    (hint : b.buffer.length < 2 ^ 31) : growInBuffer b = some b := by
  have hlen := h.length_eq
  have hfree := h.writeAble_eq (by omega)
  rw [growInBuffer, if_neg (by omega)]

/-- Growing a full in-buffer gives the loop free space, as long as an `int` can
say how much. -/
theorem exists_growInBuffer (hb : b.Sound) (hpos : 0 < b.buffer.length)
    (hgrow : b.writeIndex = b.buffer.length → b.buffer.length < 2 ^ 30) :
    ∃ b' stale spare, growInBuffer b = some b' ∧ b'.Layout stale b.readable spare ∧
      spare.length = room b ∧ 0 < spare.length ∧ b'.buffer.length < 2 ^ 31 := by
  obtain ⟨stale, spare, hlay⟩ := hb.exists_layout
  have hlen := hlay.length_eq
  have hr := hlay.readIndex_eq
  have hw := hlay.writeIndex_eq
  have hint := hb.length_lt_int
  have hfree := hlay.writeAble_eq (by omega)
  by_cases hfull : b.writeIndex = b.buffer.length
  · have hsize := hgrow hfull
    have hwrap : wrap (2 * (b.buffer.length : ℤ)) = ((2 * b.buffer.length : ℕ) : ℤ) := by
      rw [wrap_eq_self (by omega) (by omega)]
      push_cast
      rfl
    obtain ⟨b', hb', hlay'⟩ :=
      hlay.exists_resizeBuffer (2 * b.buffer.length) (by omega)
    have hlen' := hlay'.length_eq
    rw [List.length_replicate, List.length_nil] at hlen'
    refine ⟨b', [], _, ?_, hlay', ?_, ?_, by omega⟩
    · rw [growInBuffer, if_pos (by omega), hwrap, hb']
    · rw [room, if_pos hfull, List.length_replicate]
      omega
    · rw [List.length_replicate]
      omega
  · refine ⟨b, stale, spare, growInBuffer_of_spare hlay (by omega) hint, hlay, ?_, by omega, hint⟩
    rw [room, if_neg hfull]
    omega

/-- A full in-buffer that cannot be made twice as large throws. -/
theorem growInBuffer_eq_none (hb : b.Sound) (hfull : b.writeIndex = b.buffer.length)
    (hbig : 2 ^ 30 ≤ b.buffer.length) : growInBuffer b = none := by
  have hint := hb.length_lt_int
  have hfree : b.writeAble = 0 := by
    rw [TcpBuffer.writeAble, hfull, Int.sub_self]
    rfl
  have hwrap : wrap (2 * (b.buffer.length : ℤ)) < 0 := by
    rw [wrap_eq_sub (by omega) (by omega)]
    omega
  rw [growInBuffer, if_pos hfree, TcpBuffer.resizeBuffer, if_pos hwrap]

theorem onReadLoop_spec {results : List (Hooked ReadResult)}
    (h : c.inBuffer.Layout stale live spare) (hspare : 0 < spare.length)
    (hint : c.inBuffer.buffer.length < 2 ^ 31) (hans : AnswersTo spare.length results) :
    ∃ c' isClose, onReadLoop results c = some (c', isClose, []) ∧
      c'.inBuffer.readable = live ++ results.flatMap (kept spare.length) := by
  generalize hn : spare.length = n at hans hspare
  induction hans generalizing c spare with
  | @short bs o hne hlt =>
      have hgrow := growInBuffer_of_spare h (by omega) hint
      have hfree := h.writeAble_eq (by rw [h.length_eq] at hint; omega)
      have hw := h.write_le_length
      have hwrite := h.writeIndex_eq
      have hlen := h.length_eq
      obtain ⟨b', hreceive, hlay'⟩ := h.exists_receive bs (by omega) (by omega)
      refine ⟨{ fire c o with inBuffer := b' }, false, ?_, ?_⟩
      · have hle : ¬ (bs = [] ∨ (bs.length : ℤ) > c.inBuffer.writeAble) := by
          simp only [hne, false_or]
          omega
        have hshort : ¬ (bs.length : ℤ) = c.inBuffer.writeAble := by omega
        simp [onReadLoop, hgrow, hle, hreceive, hshort, fire]
      · simp [hlay'.readable_eq, kept, received, hlt]
  | @eof o =>
      have hgrow := growInBuffer_of_spare h (by omega) hint
      exact ⟨fire c o, true, by simp [onReadLoop, hgrow, fire], by
        simp [fire, h.readable_eq, kept, received, hspare]⟩
  | @eagain o =>
      have hgrow := growInBuffer_of_spare h (by omega) hint
      exact ⟨fire c o, false, by simp [onReadLoop, hgrow, fire], by
        simp [fire, h.readable_eq, kept, received, hspare]⟩
  | @full bs o results hlen hrest ih =>
      have hgrow := growInBuffer_of_spare h (by omega) hint
      have hfree := h.writeAble_eq (by rw [h.length_eq] at hint; omega)
      obtain ⟨b', hreceive, hlay'⟩ := h.exists_receive_full bs (by omega) hint
      have hsize := TcpBuffer.length_receive hreceive
      obtain ⟨c', isClose, hloop, hread⟩ :=
        ih (c := { fire c o with inBuffer := b' }) hlay' (hsize ▸ hint) hlen
      refine ⟨c', isClose, ?_, ?_⟩
      · have hne : bs ≠ [] := List.ne_nil_of_length_pos (by omega)
        have hfull : (bs.length : ℤ) = c.inBuffer.writeAble := by omega
        rw [← hloop]
        simp [onReadLoop, hgrow, hne, hreceive, hfull, fire]
      · rw [hread, List.flatMap_cons, kept, if_neg (by simp [received, hlen])]
        rfl
  | @error o results hrest ih =>
      have hgrow := growInBuffer_of_spare h (by omega) hint
      obtain ⟨c', isClose, hloop, hread⟩ := ih (c := fire c o) h hint hn
      refine ⟨c', isClose, ?_, ?_⟩
      · rw [← hloop]
        simp [onReadLoop, hgrow, fire]
      · rw [hread, List.flatMap_cons, kept]
        simp [received, hspare]

end Loop

section Frame

variable {c c' : TcpConnection}

/-- The passes of the loop of `onRead` over the results `used`: the connection that they
leave, and whether the peer has closed. -/
inductive ReadPasses : TcpConnection → List (Hooked ReadResult) → TcpConnection → Bool → Prop
  | short {c : TcpConnection} {r : Hooked ReadResult} {b b' : TcpBuffer} {bs : Bytes}
      (hgrow : growInBuffer c.inBuffer = some b) (hr : r.result = .bytes bs)
      (hfit : ¬ (bs = [] ∨ (bs.length : ℤ) > b.writeAble)) (hreceive : b.receive bs = some b')
      (hshort : ¬ (bs.length : ℤ) = b.writeAble) :
      ReadPasses c [r] { fire c r.overTime with inBuffer := b' } false
  | eof {c : TcpConnection} {r : Hooked ReadResult} {b : TcpBuffer}
      (hgrow : growInBuffer c.inBuffer = some b) (hr : r.result = .eof) :
      ReadPasses c [r] { fire c r.overTime with inBuffer := b } true
  | eagain {c : TcpConnection} {r : Hooked ReadResult} {b : TcpBuffer}
      (hgrow : growInBuffer c.inBuffer = some b) (hr : r.result = .eagain) :
      ReadPasses c [r] { fire c r.overTime with inBuffer := b } false
  | full {c c' : TcpConnection} {r : Hooked ReadResult} {used : List (Hooked ReadResult)}
      {b b' : TcpBuffer} {bs : Bytes} {isClose : Bool}
      (hgrow : growInBuffer c.inBuffer = some b) (hr : r.result = .bytes bs)
      (hfit : ¬ (bs = [] ∨ (bs.length : ℤ) > b.writeAble)) (hreceive : b.receive bs = some b')
      (hfull : (bs.length : ℤ) = b.writeAble)
      (hrest : ReadPasses { fire c r.overTime with inBuffer := b' } used c' isClose) :
      ReadPasses c (r :: used) c' isClose
  | error {c c' : TcpConnection} {r : Hooked ReadResult} {used : List (Hooked ReadResult)}
      {b : TcpBuffer} {isClose : Bool}
      (hgrow : growInBuffer c.inBuffer = some b) (hr : r.result = .error)
      (hrest : ReadPasses { fire c r.overTime with inBuffer := b } used c' isClose) :
      ReadPasses c (r :: used) c' isClose

/-- A call of `onRead` that returns has made its passes. -/
theorem exists_readPasses {results rest : List (Hooked ReadResult)} {isClose : Bool}
    (h : onReadLoop results c = some (c', isClose, rest)) :
    ∃ used, results = used ++ rest ∧ ReadPasses c used c' isClose := by
  induction results generalizing c with
  | nil => cases h
  | cons r results ih =>
      rw [onReadLoop, Option.bind_eq_bind, Option.bind_eq_some_iff] at h
      obtain ⟨b, hgrow, h⟩ := h
      cases hr : r.result with
      | bytes bs =>
          simp only [hr] at h
          split_ifs at h with hfit hfull
          · rcases Option.bind_eq_some_iff.1 h with ⟨b', hreceive, h⟩
            obtain ⟨used, rfl, hrest⟩ := ih h
            exact ⟨r :: used, rfl, .full hgrow hr hfit hreceive hfull hrest⟩
          · rcases Option.bind_eq_some_iff.1 h with ⟨b', hreceive, heq⟩
            cases heq
            exact ⟨[r], rfl, .short hgrow hr hfit hreceive hfull⟩
      | eof =>
          simp only [hr] at h
          cases h
          exact ⟨[r], rfl, .eof hgrow hr⟩
      | eagain =>
          simp only [hr] at h
          cases h
          exact ⟨[r], rfl, .eagain hgrow hr⟩
      | error =>
          simp only [hr] at h
          obtain ⟨used, rfl, hrest⟩ := ih h
          exact ⟨r :: used, rfl, .error hgrow hr hrest⟩

theorem growInBuffer_of_proper {b b' : TcpBuffer} (h : b.Proper)
    (hint : b.buffer.length < 2 ^ 31) (hgrow : growInBuffer b = some b') : b' = b := by
  obtain ⟨stale, spare, hlay⟩ := h.exists_layout
  have hlen := hlay.length_eq
  have hw := h.write_lt_length
  have hwrite := hlay.writeIndex_eq
  rw [growInBuffer_of_spare hlay (by omega) hint] at hgrow
  exact (Option.some.inj hgrow).symm

theorem proper_of_receive {b b' b'' : TcpBuffer} {bs : Bytes} (h : b.Proper)
    (hint : b.buffer.length < 2 ^ 31) (hgrow : growInBuffer b = some b')
    (hfit : ¬ (bs = [] ∨ (bs.length : ℤ) > b'.writeAble)) (hreceive : b'.receive bs = some b'') :
    b''.Proper ∧ b''.buffer.length = b.buffer.length := by
  have hb := growInBuffer_of_proper h hint hgrow
  subst hb
  rw [not_or, not_lt] at hfit
  exact ⟨h.receive hint hfit.2 hreceive, TcpBuffer.length_receive hreceive⟩

/-- Reading changes the in-buffer and the flag of the timer only, and does not
grow an in-buffer that has spare cells. -/
theorem ReadPasses.frame {used : List (Hooked ReadResult)} {isClose : Bool}
    (h : ReadPasses c used c' isClose) :
    ∃ inBuffer overTime, c' = { c with inBuffer := inBuffer, isOverTime := overTime } ∧
      (c.inBuffer.Proper → c.inBuffer.buffer.length < 2 ^ 31 →
        inBuffer.Proper ∧ inBuffer.buffer.length = c.inBuffer.buffer.length) := by
  induction h with
  | @short c r b b' bs hgrow hr hfit hreceive hshort =>
      exact ⟨b', _, rfl, fun hproper hint => proper_of_receive hproper hint hgrow hfit hreceive⟩
  | @eof c r b hgrow hr | @eagain c r b hgrow hr =>
      refine ⟨b, _, rfl, fun hproper hint => ?_⟩
      rw [growInBuffer_of_proper hproper hint hgrow]
      exact ⟨hproper, rfl⟩
  | @full c c' r used b b' bs isClose hgrow hr hfit hreceive hfull hrest ih =>
      obtain ⟨inBuffer, overTime, rfl, hkeep⟩ := ih
      refine ⟨inBuffer, overTime, rfl, fun hproper hint => ?_⟩
      obtain ⟨hproper', hlen'⟩ := proper_of_receive hproper hint hgrow hfit hreceive
      obtain ⟨hproper'', hlen''⟩ := hkeep hproper' (hlen'.trans_lt hint)
      exact ⟨hproper'', hlen''.trans hlen'⟩
  | @error c c' r used b isClose hgrow hr hrest ih =>
      obtain ⟨inBuffer, overTime, rfl, hkeep⟩ := ih
      refine ⟨inBuffer, overTime, rfl, fun hproper hint => ?_⟩
      have hb := growInBuffer_of_proper hproper hint hgrow
      subst hb
      exact hkeep hproper hint

/-- `onRead` leaves the out-buffer and the replies alone. -/
theorem onRead_frame {results rest : List (Hooked ReadResult)}
    (h : c.onRead results = some (c', rest)) :
    ∃ inBuffer overTime state stop,
      c' = { c with inBuffer := inBuffer, isOverTime := overTime, state := state, stop := stop } ∧
      (c.inBuffer.Proper → c.inBuffer.buffer.length < 2 ^ 31 →
        inBuffer.Proper ∧ inBuffer.buffer.length = c.inBuffer.buffer.length) := by
  unfold onRead at h
  split_ifs at h
  · cases h
    exact ⟨_, _, _, _, rfl, fun hproper _ => ⟨hproper, rfl⟩⟩
  · rcases Option.map_eq_some_iff.1 h with ⟨⟨c₁, isClose, rest₁⟩, hloop, heq⟩
    obtain ⟨_, _, hpasses⟩ := exists_readPasses hloop
    obtain ⟨inBuffer, overTime, rfl, hkeep⟩ := hpasses.frame
    cases heq
    unfold clear
    split_ifs <;> exact ⟨_, _, _, _, rfl, hkeep⟩

/-- The peer has closed when a `read` has met the end of the stream. -/
theorem ReadPasses.isClose_iff {used : List (Hooked ReadResult)} {isClose : Bool}
    (h : ReadPasses c used c' isClose) :
    isClose = true ↔ ReadResult.eof ∈ used.map Hooked.result := by
  induction h with
  | short hgrow hr hfit hreceive hshort => simp [hr]
  | eof hgrow hr => simp [hr]
  | eagain hgrow hr => simp [hr]
  | full hgrow hr hfit hreceive hfull hrest ih =>
      rw [ih, List.map_cons, hr, List.mem_cons]
      simp
  | error hgrow hr hrest ih =>
      rw [ih, List.map_cons, hr, List.mem_cons]
      simp

/-- Reading closes the connection at the end of the stream, and keeps its state
otherwise. -/
theorem onRead_closes {results : List (Hooked ReadResult)} (hstate : c.state = .connected)
    (h : c.onRead results = some (c', [])) : c'.fd = c.fd ∧
      if ReadResult.eof ∈ results.map Hooked.result then c'.state = .closed ∧ c'.stop = true
      else c'.state = .connected ∧ c'.stop = c.stop := by
  rw [onRead, if_neg (by rw [hstate]; decide)] at h
  rcases Option.map_eq_some_iff.1 h with ⟨⟨c₁, isClose, rest⟩, hloop, heq⟩
  obtain ⟨hc', rfl⟩ := Prod.mk.inj heq
  obtain ⟨used, hused, hpasses⟩ := exists_readPasses hloop
  rw [List.append_nil] at hused
  subst hused
  obtain ⟨inBuffer, overTime, rfl, _⟩ := hpasses.frame
  simp only [← hpasses.isClose_iff]
  subst hc'
  cases isClose with
  | false => exact ⟨rfl, hstate, rfl⟩
  | true =>
      have hopen : ¬ (c.state = .closed) := by
        rw [hstate]
        decide
      simp only [if_true, clear, if_neg hopen]
      exact ⟨trivial, trivial, trivial⟩

end Frame

/-- Growing the in-buffer once more at the head of the loop changes nothing. -/
theorem onReadLoop_grown {c : TcpConnection} {b : TcpBuffer}
    (hgrow : growInBuffer c.inBuffer = some b) (hgrown : growInBuffer b = some b)
    (results : List (Hooked ReadResult)) :
    onReadLoop results c = onReadLoop results { c with inBuffer := b } := by
  cases results with
  | nil => rfl
  | cons r results => simp only [onReadLoop, hgrow, hgrown]

/-- The reads of one call of `onRead`: none on a connection that is not
connected. -/
def Answers (c : TcpConnection) (results : List (Hooked ReadResult)) : Prop :=
  if c.state = .connected then AnswersTo (room c.inBuffer) results else results = []

/-- The readable bytes of the in-buffer after `onRead` are those before it and
the bytes that the reads have returned. -/
def ReadConserves (c : TcpConnection) (results : List (Hooked ReadResult)) : Prop :=
  ∃ c', c.onRead results = some (c', []) ∧
    c'.inBuffer.readable = c.inBuffer.readable ++ results.flatMap received

/-- `onRead` neither loses nor adds a byte exactly when no read fills the free
space of the in-buffer, and a full in-buffer is small enough to be made twice as
large. -/
theorem readConserves_iff {c : TcpConnection} (hb : c.inBuffer.Sound)
    (hpos : 0 < c.inBuffer.buffer.length) {results : List (Hooked ReadResult)}
    (hans : Answers c results) :
    ReadConserves c results ↔
      (c.state = .connected →
        (c.inBuffer.writeIndex = c.inBuffer.buffer.length →
          c.inBuffer.buffer.length < 2 ^ 30) ∧
        ∀ r ∈ results, (received r).length < room c.inBuffer) := by
  by_cases hstate : c.state = .connected
  · rw [Answers, if_pos hstate] at hans
    simp only [ReadConserves, onRead, hstate, ne_eq, not_true_eq_false, if_false, true_implies]
    by_cases hgrow : c.inBuffer.writeIndex = c.inBuffer.buffer.length →
        c.inBuffer.buffer.length < 2 ^ 30
    · obtain ⟨b, stale, spare, hb', hlay, hroom, hspare, hint⟩ :=
        exists_growInBuffer hb hpos hgrow
      obtain ⟨c', isClose, hloop, hread⟩ :=
        onReadLoop_spec (c := { c with inBuffer := b }) hlay hspare hint (hroom ▸ hans)
      rw [onReadLoop_grown hb' (growInBuffer_of_spare hlay hspare hint), hloop,
        ← kept_eq_received_iff (hroom ▸ hspare), ← hroom]
      have hclear : (if isClose = true then c'.clear else c').inBuffer = c'.inBuffer := by
        unfold clear
        split_ifs <;> rfl
      constructor
      · rintro ⟨c'', heq, hconserve⟩
        cases heq
        rw [hclear, hread, List.append_cancel_left_eq] at hconserve
        exact ⟨hgrow, hconserve⟩
      · rintro ⟨_, hkept⟩
        exact ⟨_, rfl, by rw [hclear, hread, hkept]⟩
    · push Not at hgrow
      have hnone := growInBuffer_eq_none hb hgrow.1 hgrow.2
      refine iff_of_false ?_ fun h => absurd (h.1 hgrow.1) (not_lt_of_ge hgrow.2)
      rintro ⟨c', heq, _⟩
      cases results with
      | nil => cases hans
      | cons r results => simp [onReadLoop, hnone] at heq
  · rw [Answers, if_neg hstate] at hans
    subst hans
    simp [ReadConserves, onRead, hstate]

/-- One short read. -/
theorem readConserves_iff_short :
    ReadConserves (addClient 5) [⟨.bytes [1, 2, 3], false⟩] ↔
      ((addClient 5).state = .connected →
        ((addClient 5).inBuffer.writeIndex = (addClient 5).inBuffer.buffer.length →
          (addClient 5).inBuffer.buffer.length < 2 ^ 30) ∧
        ∀ r ∈ ([⟨.bytes [1, 2, 3], false⟩] : List (Hooked ReadResult)),
          (received r).length < room (addClient 5).inBuffer) :=
  readConserves_iff (by decide +kernel) (by decide +kernel)
    (.short (by decide) (by decide +kernel))

/-- A read that fills the in-buffer is lost. -/
theorem not_readConserves_full :
    Answers (addClient 5) [⟨.bytes (List.replicate 128 7), false⟩, ⟨.eagain, false⟩] ∧
      ¬ ReadConserves (addClient 5) [⟨.bytes (List.replicate 128 7), false⟩, ⟨.eagain, false⟩] := by
  have hrun : ((addClient 5).onRead [⟨.bytes (List.replicate 128 7), false⟩, ⟨.eagain, false⟩]).map
      (fun p => p.1.inBuffer.readable) = some [] := by decide +kernel
  refine ⟨.full (by decide +kernel) .eagain, ?_⟩
  rintro ⟨c', heq, hread⟩
  rw [heq, Option.map_some, Option.some.injEq, hread] at hrun
  exact absurd hrun (by decide +kernel)

end TcpConnection

end Rocket
