import Rocket.Foundation.Machine
import Rocket.Foundation.Queue
import Rocket.Net.Tcp.TcpBuffer

/-!
# TcpBuffer is a byte queue

`bufferMachine` runs the four operations that move data through a `TcpBuffer`;
`queueMachine` gives the same operations on a queue of bytes, where compaction
and resizing do nothing. The buffer simulates the queue: at every point of
every run the readable bytes are the contents of the queue, and reading returns
the bytes at its front.
-/

namespace Rocket

open Foundation

/-- The operations that move data through a buffer. -/
inductive BufferOp where
  | writeToBuffer (buf : Bytes)
  | readFromBuffer (re : Bytes) (size : ℤ)
  | adjustBuffer
  | resizeBuffer (newSize : ℤ)
  deriving DecidableEq, Repr

/-- An operation on the buffer; reading outputs the new contents of `re`. -/
def bufferStep (b : TcpBuffer) : BufferOp → Option (TcpBuffer × Option Bytes)
  | .writeToBuffer buf => (b.writeToBuffer buf).map fun b' => (b', none)
  | .readFromBuffer re size => (b.readFromBuffer re size).map fun (re', b') => (b', some re')
  | .adjustBuffer => b.adjustBuffer.map fun b' => (b', none)
  | .resizeBuffer newSize => (b.resizeBuffer newSize).map fun b' => (b', none)

def bufferMachine : Machine TcpBuffer BufferOp (Option Bytes) := ⟨bufferStep⟩

/-- What an operation is for. Fewer than `limit` bytes may be written in all,
no negative number of bytes may be asked for, and the vector may not be made
smaller than its contents or larger than an `int` says. -/
def queueStep (limit : ℕ) (q : Queue UInt8) : BufferOp → Option (Queue UInt8 × Option Bytes)
  | .writeToBuffer buf =>
      if q.pushed.length + buf.length < limit then some (q.push buf, none) else none
  | .readFromBuffer re size =>
      if 0 ≤ size then
        some (q.pop size.toNat,
          some (if q.contents = [] then re else q.contents.take size.toNat))
      else none
  | .adjustBuffer => some (q, none)
  | .resizeBuffer newSize =>
      if (q.contents.length : ℤ) ≤ newSize ∧ newSize < 2 ^ 31 then some (q, none) else none

def queueMachine (limit : ℕ) : Machine (Queue UInt8) BufferOp (Option Bytes) :=
  ⟨queueStep limit⟩

/-- The buffer holds the contents of the queue, and its write index counts no
more bytes than have been pushed. -/
def HoldsQueue (q : Queue UInt8) (b : TcpBuffer) : Prop :=
  ∃ stale spare, b.Layout stale q.contents spare ∧ b.buffer.length < 2 ^ 31 ∧
    b.writeIndex ≤ q.pushed.length

namespace HoldsQueue

variable {q : Queue UInt8} {b : TcpBuffer}

theorem of_new {size : ℕ} (hsize : size < 2 ^ 31) : HoldsQueue Queue.empty (.new size) :=
  ⟨[], _, TcpBuffer.layout_new size, by simpa [TcpBuffer.new] using hsize, le_rfl⟩

theorem writeToBuffer (h : HoldsQueue q b) {buf : Bytes}
    (hlimit : q.pushed.length + buf.length < 2 ^ 30) :
    ∃ b', b.writeToBuffer buf = some b' ∧ HoldsQueue (q.push buf) b' := by
  obtain ⟨stale, spare, hlay, hlen, hw⟩ := h
  have hsplit := hlay.length_eq
  have hwrite := hlay.writeIndex_eq
  obtain ⟨b', stale', spare', hb', hlay', hstale, hlen'⟩ :=
    hlay.exists_writeToBuffer buf (by omega) (Or.inr (by omega))
  refine ⟨b', hb', stale', spare', hlay', ?_, ?_⟩
  · rw [hlen', TcpBuffer.lengthAfterWrite]
    split_ifs <;> omega
  · rw [hlay'.writeIndex_eq]
    simp only [Queue.pushed_push, List.length_append]
    omega

theorem readFromBuffer (h : HoldsQueue q b) (re : Bytes) (n : ℕ) :
    ∃ b', b.readFromBuffer re n =
        some (if q.contents = [] then re else q.contents.take n, b') ∧
      HoldsQueue (q.pop n) b' := by
  obtain ⟨stale, spare, hlay, hlen, hw⟩ := h
  by_cases hempty : q.contents = []
  · refine ⟨b, ?_, stale, spare, ?_, hlen, hw⟩
    · rw [TcpBuffer.readFromBuffer, if_pos (by rw [hlay.readAble_eq]; simp [hempty]),
        if_pos hempty]
    · simpa [hempty] using hlay
  · have hpos : 0 < q.contents.length := List.length_pos_of_ne_nil hempty
    have hreadSize : (if b.readAble > (n : ℤ) then (n : ℤ) else b.readAble) =
        ((q.contents.take n).length : ℤ) := by
      rw [hlay.readAble_eq, List.length_take]
      split_ifs <;> omega
    have hlay' : b.Layout stale (q.contents.take n ++ q.contents.drop n) spare := by
      rwa [List.take_append_drop]
    obtain ⟨b', stale', spare', hb', hlay'', htotal, hstale⟩ := hlay'.exists_adjustBuffer_advance
    have hcopy := copyBlock_zero (List.replicate (q.contents.take n).length 0) b.buffer
      (q.contents.take n) b.readIndex _ hlay'.readBlock_eq (by simp)
    refine ⟨b', ?_, stale', spare', hlay'', ?_, ?_⟩
    · rw [TcpBuffer.readFromBuffer, if_neg (by rw [hlay.readAble_eq]; omega), if_neg hempty]
      simp only [hreadSize]
      rw [if_neg (by omega), Int.toNat_natCast, hcopy]
      simp only [Option.bind_eq_bind, Option.bind_some, hb']
      simp
    · rw [hlay''.length_eq]
      rw [hlay'.length_eq, List.length_append] at hlen
      omega
    · rw [hlay'.writeIndex_eq, List.length_append] at hw
      rw [hlay''.writeIndex_eq, Queue.pushed_pop]
      omega

theorem adjustBuffer (h : HoldsQueue q b) :
    ∃ b', b.adjustBuffer = some b' ∧ HoldsQueue q b' := by
  obtain ⟨stale, spare, hlay, hlen, hw⟩ := h
  obtain ⟨b', stale', spare', hb', hlay', htotal, hstale⟩ := hlay.exists_adjustBuffer
  refine ⟨b', hb', stale', spare', hlay', ?_, ?_⟩
  · rw [hlay.length_eq] at hlen
    rw [hlay'.length_eq]
    omega
  · rw [hlay.writeIndex_eq] at hw
    rw [hlay'.writeIndex_eq]
    omega

theorem resizeBuffer (h : HoldsQueue q b) (newSize : ℕ)
    (hsize : q.contents.length ≤ newSize) (hint : newSize < 2 ^ 31) :
    ∃ b', b.resizeBuffer newSize = some b' ∧ HoldsQueue q b' := by
  obtain ⟨stale, spare, hlay, hlen, hw⟩ := h
  obtain ⟨b', hb', hlay'⟩ := hlay.exists_resizeBuffer newSize hsize
  refine ⟨b', hb', [], _, hlay', ?_, ?_⟩
  · rw [hlay'.length_eq]
    simp
    omega
  · rw [hlay.writeIndex_eq] at hw
    rw [hlay'.writeIndex_eq, List.length_nil]
    omega

end HoldsQueue

theorem bufferMachine_refines :
    Machine.Refines (queueMachine (2 ^ 30)) bufferMachine HoldsQueue := by
  intro q b op q' o hholds hstep
  simp only [queueMachine] at hstep
  simp only [bufferMachine]
  cases op with
  | writeToBuffer buf =>
      simp only [queueStep, Option.ite_none_right_eq_some, Option.some.injEq,
        Prod.mk.injEq] at hstep
      obtain ⟨hlimit, rfl, rfl⟩ := hstep
      obtain ⟨b', hb', hholds'⟩ := hholds.writeToBuffer hlimit
      exact ⟨b', by simp [bufferStep, hb'], hholds'⟩
  | readFromBuffer re size =>
      simp only [queueStep, Option.ite_none_right_eq_some, Option.some.injEq,
        Prod.mk.injEq] at hstep
      obtain ⟨hsize, rfl, rfl⟩ := hstep
      obtain ⟨n, rfl⟩ := Int.eq_ofNat_of_zero_le hsize
      obtain ⟨b', hb', hholds'⟩ := hholds.readFromBuffer re n
      exact ⟨b', by simp [bufferStep, hb'], hholds'⟩
  | adjustBuffer =>
      simp only [queueStep, Option.some.injEq, Prod.mk.injEq] at hstep
      obtain ⟨rfl, rfl⟩ := hstep
      obtain ⟨b', hb', hholds'⟩ := hholds.adjustBuffer
      exact ⟨b', by simp [bufferStep, hb'], hholds'⟩
  | resizeBuffer newSize =>
      simp only [queueStep, Option.ite_none_right_eq_some, Option.some.injEq,
        Prod.mk.injEq] at hstep
      obtain ⟨⟨hsize, hint⟩, rfl, rfl⟩ := hstep
      obtain ⟨n, rfl⟩ := Int.eq_ofNat_of_zero_le (a := newSize) (by omega)
      obtain ⟨b', hb', hholds'⟩ := hholds.resizeBuffer n (by omega) (by omega)
      exact ⟨b', by simp [bufferStep, hb'], hholds'⟩

/-- At every point of every run that the queue allows, from a new buffer of any
size, the buffer has given the outputs of the queue, its indices are in order,
and its readable bytes are the contents of the queue. No copy has left its
vector, since the run is defined. -/
theorem bufferMachine_run_refines (size : ℕ) (hint : size < 2 ^ 31) (ops : List BufferOp)
    (hops : ((queueMachine (2 ^ 30)).run Queue.empty ops).isSome)
    (done : List BufferOp) (hdone : done <+: ops) :
    ∃ b q outs, (queueMachine (2 ^ 30)).run Queue.empty done = some (q, outs) ∧
      bufferMachine.run (.new size) done = some (b, outs) ∧
      b.readIndex ≤ b.writeIndex ∧ b.writeIndex ≤ b.buffer.length ∧
      b.readable = q.contents := by
  obtain ⟨rest, rfl⟩ := hdone
  rcases Option.isSome_iff_exists.1 hops with ⟨⟨q', outs'⟩, hrun⟩
  obtain ⟨q, outs, outs₂, hq, _, _⟩ :=
    (Machine.run_append_eq_some_iff _ _ done rest q' outs').1 hrun
  obtain ⟨b, hb, stale, spare, hlay, _, _⟩ :=
    bufferMachine_refines.run (HoldsQueue.of_new hint) hq
  exact ⟨b, q, outs, hq, hb, hlay.read_le_write, hlay.write_le_length, hlay.readable_eq⟩

/-- A run that grows the vector, drains it past a third and shrinks it again. -/
theorem bufferMachine_run_refines_growing :
    ∃ b q outs, (queueMachine (2 ^ 30)).run Queue.empty
        [.writeToBuffer [1, 2, 3, 4, 5], .readFromBuffer [] 3, .adjustBuffer,
          .resizeBuffer 2, .writeToBuffer [6]] = some (q, outs) ∧
      bufferMachine.run (.new 4)
        [.writeToBuffer [1, 2, 3, 4, 5], .readFromBuffer [] 3, .adjustBuffer,
          .resizeBuffer 2, .writeToBuffer [6]] = some (b, outs) ∧
      b.readIndex ≤ b.writeIndex ∧ b.writeIndex ≤ b.buffer.length ∧
      b.readable = q.contents :=
  bufferMachine_run_refines 4 (by decide) _ (by decide) _ (List.prefix_refl _)

end Rocket
