import Rocket.Net.Tcp.BufferQueue

/-!
# Moving the read index

`moveReadIndex` is meant to consume readable bytes, or to refuse. Its guard compares
the new index with the size of the vector, though, and not with the two indices: it
lets the index move backwards and past the write index, and it refuses to move to the
end of the vector. `moveReadIndex_eq` is the guard without its `int` arithmetic, and
`MoveFits` the moves that it lets through or refuses rightly.
-/

namespace Rocket

open Foundation

/-- The operations on a buffer: those that move data, and the moves of the two
indices by any `int`. -/
inductive CursorOp where
  | data (op : BufferOp)
  | moveReadIndex (size : Int32)
  | moveWriteIndex (size : Int32)
  deriving DecidableEq

/-- The sizes that an operation is given are `int`s. -/
def BufferOp.HasInts : BufferOp → Prop
  | .writeToBuffer buf => buf.length < 2 ^ 31
  | .readFromBuffer _ size => -2 ^ 31 ≤ size ∧ size < 2 ^ 31
  | .adjustBuffer => True
  | .resizeBuffer newSize => -2 ^ 31 ≤ newSize ∧ newSize < 2 ^ 31

instance : ∀ op : BufferOp, Decidable op.HasInts
  | .writeToBuffer buf => inferInstanceAs (Decidable (buf.length < 2 ^ 31))
  | .readFromBuffer _ size => inferInstanceAs (Decidable (-2 ^ 31 ≤ size ∧ size < 2 ^ 31))
  | .adjustBuffer => isTrue trivial
  | .resizeBuffer newSize => inferInstanceAs (Decidable (-2 ^ 31 ≤ newSize ∧ newSize < 2 ^ 31))

def cursorStep (b : TcpBuffer) : CursorOp → Option (TcpBuffer × Option Bytes)
  | .data op => if op.HasInts then bufferStep b op else none
  | .moveReadIndex size => (b.moveReadIndex size.toInt).map fun b' => (b', none)
  | .moveWriteIndex size => some (b.moveWriteIndex size.toInt, none)

def cursorMachine : Machine TcpBuffer CursorOp (Option Bytes) := ⟨cursorStep⟩

namespace TcpBuffer

/-- `0 <= m_read_index <= m_write_index <= m_buffer.size()` -/
def InOrder (b : TcpBuffer) : Prop :=
  b.readIndex ≤ b.writeIndex ∧ b.writeIndex ≤ b.buffer.length

instance (b : TcpBuffer) : Decidable b.InOrder := inferInstanceAs (Decidable (_ ∧ _))

/-- `moveReadIndex` consumes `size` readable bytes, or changes nothing when there are
not so many, and the indices are in order. -/
def MovesExactly (b : TcpBuffer) (size : ℤ) : Prop :=
  ∃ b', b.moveReadIndex size = some b' ∧ b'.InOrder ∧
    if 0 ≤ size ∧ size ≤ b.readAble then b'.readable = b.readable.drop size.toNat else b' = b

/-- The indices are in order. Readable bytes to be consumed end before the end of the
vector; a negative size leads to before its first byte; and a size that is too large
leads to its end or beyond. -/
structure MoveFits (b : TcpBuffer) (size : ℤ) : Prop where
  inOrder : b.InOrder
  within : 0 < size → size ≤ b.readAble → b.readIndex + size < b.buffer.length
  negative : size < 0 → b.readIndex + size < 0
  beyond : b.readAble < size → (b.buffer.length : ℤ) ≤ b.readIndex + size

instance (b : TcpBuffer) (size : ℤ) : Decidable (b.MoveFits size) :=
  decidable_of_iff (b.InOrder ∧ (0 < size → size ≤ b.readAble →
      b.readIndex + size < b.buffer.length) ∧ (size < 0 → b.readIndex + size < 0) ∧
      (b.readAble < size → (b.buffer.length : ℤ) ≤ b.readIndex + size))
    ⟨fun ⟨h, hw, hn, hb⟩ => ⟨h, hw, hn, hb⟩, fun h => ⟨h.1, h.2, h.3, h.4⟩⟩

def KeepsOrder (b : TcpBuffer) : CursorOp → Prop
  | .data _ => True
  | .moveReadIndex size => b.MoveFits size.toInt
  | .moveWriteIndex size => (b.moveWriteIndex size.toInt).InOrder

instance (b : TcpBuffer) : ∀ op, Decidable (b.KeepsOrder op)
  | .data _ => isTrue trivial
  | .moveReadIndex size => inferInstanceAs (Decidable (b.MoveFits size.toInt))
  | .moveWriteIndex size => inferInstanceAs (Decidable (b.moveWriteIndex size.toInt).InOrder)

variable {b b' : TcpBuffer}

/-- The write index lies in the vector, whose size is an `int`. -/
structure Bounded (b : TcpBuffer) : Prop where
  write_le_length : b.writeIndex ≤ b.buffer.length
  length_lt_int : b.buffer.length < 2 ^ 31

theorem Sound.inOrder (h : b.Sound) : b.InOrder := ⟨h.read_le_write, h.write_le_length⟩

theorem InOrder.sound (h : b.InOrder) (hb : b.Bounded) : b.Sound := ⟨h.1, h.2, hb.length_lt_int⟩

theorem bounded_new {size : ℕ} (hsize : size < 2 ^ 31) : (new size).Bounded :=
  ⟨Nat.zero_le _, by rwa [new, List.length_replicate]⟩

/-- The guard in terms of integers. An index that overflows is behind the vector. -/
theorem moveReadIndex_eq {size : ℤ} (hr : b.readIndex ≤ b.buffer.length)
    (hlen : b.buffer.length < 2 ^ 31) (hlo : -2 ^ 31 ≤ size) (hhi : size < 2 ^ 31) :
    b.moveReadIndex size =
      if b.readIndex + size < 0 ∨ (b.buffer.length : ℤ) ≤ b.readIndex + size then some b
      else adjustBuffer { b with readIndex := (b.readIndex + size).toNat } := by
  rw [moveReadIndex]
  by_cases hover : (b.readIndex : ℤ) + size < 2 ^ 31
  · rw [wrap_eq_self (by omega) hover]
  · rw [wrap_eq_sub (by omega) (by omega), if_pos (by omega), if_pos (by omega)]

/-- A read index behind the write index is not compacted away. -/
theorem eq_of_adjustBuffer (hr : b.writeIndex < b.readIndex) (h : b.adjustBuffer = some b') :
    b' = b := by
  unfold adjustBuffer at h
  split_ifs at h
  · exact (Option.some.inj h).symm
  · have hneg : b.readAble < 0 := by
      rw [readAble]
      omega
    obtain ⟨buffer, hcopy, _⟩ := Option.bind_eq_some_iff.1 h
    obtain ⟨block, hread, _⟩ := Option.bind_eq_some_iff.1 hcopy
    have hlen := length_of_readBlock hread
    omega

theorem sound_of_resizeBuffer {newSize : ℤ} (hint : newSize < 2 ^ 31)
    (h : b.resizeBuffer newSize = some b') : b'.Sound := by
  unfold TcpBuffer.resizeBuffer at h
  split_ifs at h
  obtain ⟨temp, hcopy, heq⟩ := Option.bind_eq_some_iff.1 h
  cases heq
  have hlen := length_copyBlock hcopy
  rw [List.length_replicate] at hlen
  exact ⟨Nat.zero_le _, by simp only; omega, by simp only; omega⟩

namespace Bounded

theorem setReadIndex (hb : b.Bounded) (k : ℕ) : Bounded { b with readIndex := k } :=
  ⟨hb.write_le_length, hb.length_lt_int⟩

theorem adjustBuffer (hb : b.Bounded) (h : b.adjustBuffer = some b') : b'.Bounded := by
  have hlen := length_adjustBuffer h
  have hint := hb.length_lt_int
  refine ⟨?_, by omega⟩
  unfold TcpBuffer.adjustBuffer at h
  split_ifs at h
  · cases h
    exact hb.write_le_length
  · obtain ⟨buffer, hcopy, heq⟩ := Option.bind_eq_some_iff.1 h
    cases heq
    obtain ⟨block, hread, hfit⟩ := Option.bind_eq_some_iff.1 hcopy
    rcases Option.ite_none_right_eq_some.1 hfit with ⟨hroom, _⟩
    rw [List.length_replicate] at hroom
    simp only at hlen ⊢
    omega

theorem writeToBuffer {buf : Bytes} (hb : b.Bounded) (h : b.writeToBuffer buf = some b') :
    b'.Bounded := by
  have hcopies {b₁ : TcpBuffer} (hb₁ : b₁.Bounded)
      (h : ((copyBlock b₁.buffer b₁.writeIndex buf 0 buf.length).bind fun buffer =>
        some { b₁ with buffer := buffer, writeIndex := b₁.writeIndex + buf.length }) = some b') :
      b'.Bounded := by
    obtain ⟨buffer, hcopy, heq⟩ := Option.bind_eq_some_iff.1 h
    cases heq
    have hlen := length_copyBlock hcopy
    have hint := hb₁.length_lt_int
    obtain ⟨block, hread, hfit⟩ := Option.bind_eq_some_iff.1 hcopy
    rcases Option.ite_none_right_eq_some.1 hfit with ⟨hroom, _⟩
    exact ⟨by simp only; omega, by simp only; omega⟩
  simp only [TcpBuffer.writeToBuffer, Option.bind_eq_bind] at h
  split_ifs at h
  · obtain ⟨b₁, hgrow, hrest⟩ := Option.bind_eq_some_iff.1 h
    obtain ⟨newSize, hgrown, hresize⟩ := Option.bind_eq_some_iff.1 hgrow
    simp only [grownSize, Option.ite_none_right_eq_some, Option.some.injEq] at hgrown
    have hint : newSize < 2 ^ 31 := by omega
    have hb₁ := sound_of_resizeBuffer hint hresize
    exact hcopies ⟨hb₁.write_le_length, hb₁.length_lt_int⟩ hrest
  · exact hcopies hb h

theorem readFromBuffer {re re' : Bytes} {size : ℤ} (hb : b.Bounded)
    (h : b.readFromBuffer re size = some (re', b')) : b'.Bounded := by
  by_cases hempty : b.readAble = 0
  · rw [TcpBuffer.readFromBuffer, if_pos hempty] at h
    cases h
    exact hb
  · rw [TcpBuffer.readFromBuffer, if_neg hempty] at h
    generalize (if b.readAble > size then size else b.readAble) = n at h
    dsimp only at h
    split_ifs at h
    obtain ⟨temp, _, hrest⟩ := Option.bind_eq_some_iff.1 h
    obtain ⟨b₁, hadjust, heq⟩ := Option.bind_eq_some_iff.1 hrest
    cases heq
    exact (hb.setReadIndex _).adjustBuffer hadjust

theorem moveReadIndex {size : ℤ} (hb : b.Bounded) (h : b.moveReadIndex size = some b') :
    b'.Bounded := by
  unfold TcpBuffer.moveReadIndex at h
  dsimp only at h
  split at h
  · cases h
    exact hb
  · exact (hb.setReadIndex _).adjustBuffer h

theorem moveWriteIndex (hb : b.Bounded) (size : ℤ) : (b.moveWriteIndex size).Bounded := by
  refine ⟨?_, by rw [buffer_moveWriteIndex]; exact hb.length_lt_int⟩
  unfold TcpBuffer.moveWriteIndex
  dsimp only
  split
  · exact hb.write_le_length
  · simp only
    omega

theorem step {op : CursorOp} {out : Option Bytes} (hb : b.Bounded)
    (hstep : cursorMachine.step b op = some (b', out)) : b'.Bounded := by
  cases op with
  | data op =>
      simp only [cursorMachine, cursorStep, Option.ite_none_right_eq_some] at hstep
      obtain ⟨hints, hstep⟩ := hstep
      cases op with
      | writeToBuffer buf =>
          simp only [bufferStep, Option.map_eq_some_iff, Prod.mk.injEq] at hstep
          obtain ⟨b₁, hwrite, rfl, _⟩ := hstep
          exact hb.writeToBuffer hwrite
      | readFromBuffer re size =>
          simp only [bufferStep, Option.map_eq_some_iff, Prod.mk.injEq, Prod.exists] at hstep
          obtain ⟨re', b₁, hread, rfl, _⟩ := hstep
          exact hb.readFromBuffer hread
      | adjustBuffer =>
          simp only [bufferStep, Option.map_eq_some_iff, Prod.mk.injEq] at hstep
          obtain ⟨b₁, hadjust, rfl, _⟩ := hstep
          exact hb.adjustBuffer hadjust
      | resizeBuffer newSize =>
          simp only [BufferOp.HasInts] at hints
          simp only [bufferStep, Option.map_eq_some_iff, Prod.mk.injEq] at hstep
          obtain ⟨b₁, hresize, rfl, _⟩ := hstep
          have hb₁ := sound_of_resizeBuffer hints.2 hresize
          exact ⟨hb₁.write_le_length, hb₁.length_lt_int⟩
  | moveReadIndex size =>
      simp only [cursorMachine, cursorStep, Option.map_eq_some_iff, Prod.mk.injEq] at hstep
      obtain ⟨b₁, hmove, rfl, _⟩ := hstep
      exact hb.moveReadIndex hmove
  | moveWriteIndex size =>
      simp only [cursorMachine, cursorStep, Option.some.injEq, Prod.mk.injEq] at hstep
      obtain ⟨rfl, _⟩ := hstep
      exact hb.moveWriteIndex size.toInt

end Bounded

namespace Sound

theorem adjustBuffer (hb : b.Sound) :
    ∃ b', b.adjustBuffer = some b' ∧ b'.Sound ∧ b'.readable = b.readable := by
  obtain ⟨stale, spare, hlay⟩ := hb.exists_layout
  obtain ⟨b', stale', spare', hb', hlay', _⟩ := hlay.exists_adjustBuffer
  refine ⟨b', hb', ⟨hlay'.read_le_write, hlay'.write_le_length, ?_⟩, hlay'.readable_eq⟩
  rw [length_adjustBuffer hb']
  exact hb.length_lt_int

theorem readAble_eq (hb : b.Sound) : b.readAble = b.readable.length := by
  obtain ⟨stale, spare, hlay⟩ := hb.exists_layout
  exact hlay.readAble_eq

theorem setReadIndex (hb : b.Sound) {k : ℕ} (hk : k ≤ b.writeIndex) :
    Sound { b with readIndex := k } :=
  ⟨hk, hb.write_le_length, hb.length_lt_int⟩

theorem readFromBuffer {re re' : Bytes} {size : ℤ} (hb : b.Sound)
    (h : b.readFromBuffer re size = some (re', b')) : b'.Sound := by
  by_cases hempty : b.readAble = 0
  · rw [TcpBuffer.readFromBuffer, if_pos hempty] at h
    cases h
    exact hb
  · rw [TcpBuffer.readFromBuffer, if_neg hempty] at h
    generalize hn : (if b.readAble > size then size else b.readAble) = n at h
    have hle : n ≤ b.readAble := by
      rw [← hn]
      split_ifs <;> omega
    have hread := hb.read_le_write
    rw [readAble] at hle
    dsimp only at h
    split_ifs at h with hneg
    obtain ⟨temp, _, hrest⟩ := Option.bind_eq_some_iff.1 h
    obtain ⟨b₁, hadjust, heq⟩ := Option.bind_eq_some_iff.1 hrest
    cases heq
    obtain ⟨b₂, hb₂, hsound, _⟩ :=
      (hb.setReadIndex (k := b.readIndex + n.toNat) (by omega)).adjustBuffer
    cases hadjust.symm.trans hb₂
    exact hsound

theorem bufferStep {op : BufferOp} {out : Option Bytes} (hb : b.Sound) (hints : op.HasInts)
    (h : bufferStep b op = some (b', out)) : b'.Sound := by
  cases op with
  | writeToBuffer buf =>
      simp only [BufferOp.HasInts] at hints
      simp only [Rocket.bufferStep, Option.map_eq_some_iff, Prod.mk.injEq] at h
      obtain ⟨b₁, hwrite, rfl, _⟩ := h
      exact (hb.writeToBuffer hints hwrite).1
  | readFromBuffer re size =>
      simp only [Rocket.bufferStep, Option.map_eq_some_iff, Prod.mk.injEq, Prod.exists] at h
      obtain ⟨re', b₁, hread, rfl, _⟩ := h
      exact hb.readFromBuffer hread
  | adjustBuffer =>
      simp only [Rocket.bufferStep, Option.map_eq_some_iff, Prod.mk.injEq] at h
      obtain ⟨b₁, hadjust, rfl, _⟩ := h
      obtain ⟨b₂, hb₂, hsound, _⟩ := hb.adjustBuffer
      cases hadjust.symm.trans hb₂
      exact hsound
  | resizeBuffer newSize =>
      simp only [BufferOp.HasInts] at hints
      simp only [Rocket.bufferStep, Option.map_eq_some_iff, Prod.mk.injEq] at h
      obtain ⟨b₁, hresize, rfl, _⟩ := h
      exact sound_of_resizeBuffer hints.2 hresize

theorem movesExactly {size : ℤ} (hb : b.Sound) (hlo : -2 ^ 31 ≤ size) (hhi : size < 2 ^ 31)
    (hfits : b.MoveFits size) : b.MovesExactly size := by
  have hread := hb.read_le_write
  have hwrite := hb.write_le_length
  have hwithin := hfits.within
  have hnegative := hfits.negative
  have hbeyond := hfits.beyond
  rw [readAble] at hwithin hbeyond
  rw [MovesExactly, moveReadIndex_eq (by omega) hb.length_lt_int hlo hhi]
  by_cases hrefused : (b.readIndex : ℤ) + size < 0 ∨ (b.buffer.length : ℤ) ≤ b.readIndex + size
  · refine ⟨b, if_pos hrefused, hb.inOrder, ?_⟩
    split_ifs with hsize
    · obtain rfl : size = 0 := by
        rw [readAble] at hsize
        omega
      rfl
    · rfl
  · have hsize : 0 ≤ size ∧ size ≤ b.readAble := by
      rw [readAble]
      omega
    obtain ⟨n, rfl⟩ := Int.eq_ofNat_of_zero_le hsize.1
    obtain ⟨stale, spare, hlay⟩ := hb.exists_layout
    rw [hb.readAble_eq] at hsize
    rw [← List.take_append_drop n b.readable] at hlay
    have hlen : (b.readable.take n).length = n := by
      rw [List.length_take]
      omega
    obtain ⟨b', stale', spare', hb', hlay', _⟩ := hlay.exists_adjustBuffer_advance
    rw [hlen] at hb'
    refine ⟨b', by rw [if_neg hrefused]; exact hb',
      ⟨hlay'.read_le_write, hlay'.write_le_length⟩, ?_⟩
    rw [if_pos (by rwa [hb.readAble_eq]), hlay'.readable_eq, Int.toNat_natCast]

theorem moveFits {size : ℤ} (hb : b.Sound) (hlo : -2 ^ 31 ≤ size) (hhi : size < 2 ^ 31)
    (hmoves : b.MovesExactly size) : b.MoveFits size := by
  obtain ⟨b', hb', horder, heq⟩ := hmoves
  have hread := hb.read_le_write
  have hwrite := hb.write_le_length
  rw [moveReadIndex_eq (by omega) hb.length_lt_int hlo hhi] at hb'
  refine ⟨hb.inOrder, fun hpos hle => ?_, fun hneg => ?_, fun hlarge => ?_⟩
  · -- a refused move leaves the bytes readable that it was to consume
    by_contra hend
    rw [if_pos (by omega)] at hb'
    cases hb'
    rw [if_pos ⟨hpos.le, hle⟩] at heq
    have hlen := congrArg List.length heq
    rw [hb.readAble_eq] at hle
    rw [List.length_drop] at hlen
    omega
  · -- a move backwards makes consumed bytes readable again
    by_contra hback
    rw [if_neg (by omega)] at hb'
    obtain ⟨b₂, hb₂, hsound, hreadable⟩ :=
      (hb.setReadIndex (k := (b.readIndex + size).toNat) (by omega)).adjustBuffer
    cases hb'.symm.trans hb₂
    rw [if_neg (by omega)] at heq
    subst heq
    have hlen := congrArg List.length hreadable
    simp only [readable, List.length_take, List.length_drop] at hlen
    omega
  · -- a move past the write index stays there
    by_contra hend
    rw [readAble] at hlarge
    rw [if_neg (by omega)] at hb'
    have hstays := eq_of_adjustBuffer (by simp only; omega) hb'
    subst hstays
    have hbehind : (b.readIndex + size).toNat ≤ b.writeIndex := horder.1
    omega

end Sound

/-- A buffer whose indices are not in order has nothing to consume, and no move puts
them in order. -/
theorem Bounded.inOrder_of_movesExactly {size : ℤ} (hb : b.Bounded)
    (hmoves : b.MovesExactly size) : b.InOrder := by
  by_contra hdisorder
  have hbehind : b.writeIndex < b.readIndex := by
    by_contra hread
    exact hdisorder ⟨Nat.le_of_not_lt hread, hb.write_le_length⟩
  obtain ⟨b', _, horder, heq⟩ := hmoves
  have hneg : ¬ (0 ≤ size ∧ size ≤ b.readAble) := by
    rw [readAble]
    omega
  rw [if_neg hneg] at heq
  exact hdisorder (heq ▸ horder)

theorem inOrder_of_meets {size : ℕ} (hsize : size < 2 ^ 31) {ops : List CursorOp}
    {outs : List (Option Bytes)} (hmeets : cursorMachine.Meets KeepsOrder (new size) ops)
    (hrun : cursorMachine.run (new size) ops = some (b, outs)) : b.Sound := by
  refine hmeets.run_invariant (fun b op b' out hb hok hstep => ?_) (sound_new hsize) hrun
  have hbounded : b.Bounded := ⟨hb.write_le_length, hb.length_lt_int⟩
  cases op with
  | data op =>
      simp only [cursorMachine, cursorStep, Option.ite_none_right_eq_some] at hstep
      exact hb.bufferStep hstep.1 hstep.2
  | moveReadIndex size =>
      obtain ⟨b₁, hb₁, horder, _⟩ := hb.movesExactly size.le_toInt size.toInt_lt hok
      have hbounded' := hbounded.step hstep
      simp only [cursorMachine, cursorStep, hb₁, Option.map_some, Option.some.injEq,
        Prod.mk.injEq] at hstep
      obtain ⟨rfl, _⟩ := hstep
      exact horder.sound hbounded'
  | moveWriteIndex size =>
      have hbounded' := hbounded.step hstep
      simp only [cursorMachine, cursorStep, Option.some.injEq, Prod.mk.injEq] at hstep
      obtain ⟨rfl, _⟩ := hstep
      exact InOrder.sound hok hbounded'

/-- In every state of every run from a new buffer, and for every `int`, the move does
what it is meant to if and only if it fits. A run whose moves fit never leaves a state
in which the indices are not in order. -/
theorem movesExactly_of_run {n : ℕ} (hn : n < 2 ^ 31) {ops : List CursorOp}
    {outs : List (Option Bytes)} (hrun : cursorMachine.run (new n) ops = some (b, outs)) :
    (∀ size : Int32, b.MovesExactly size.toInt ↔ b.MoveFits size.toInt) ∧
      (cursorMachine.Meets KeepsOrder (new n) ops → b.InOrder) := by
  have hb : b.Bounded :=
    cursorMachine.run_invariant (fun _ _ _ _ hb hstep => hb.step hstep) (bounded_new hn) hrun
  refine ⟨fun size => ⟨fun hmoves => ?_, fun hfits => ?_⟩,
    fun hmeets => (inOrder_of_meets hn hmeets hrun).inOrder⟩
  · have hsound := (hb.inOrder_of_movesExactly hmoves).sound hb
    exact hsound.moveFits size.le_toInt size.toInt_lt hmoves
  · exact (hfits.inOrder.sound hb).movesExactly size.le_toInt size.toInt_lt hfits

/-- Two of five bytes are consumed, which compacts the buffer. -/
theorem movesExactly_of_run_two :
    ∃ b, cursorMachine.run (new 6) [.data (.writeToBuffer [1, 2, 3, 4, 5])] = some (b, [none]) ∧
      b.MovesExactly 2 := by
  have hrun : cursorMachine.run (new 6) [.data (.writeToBuffer [1, 2, 3, 4, 5])] =
      some (⟨0, 5, [1, 2, 3, 4, 5, 0]⟩, [none]) := by decide
  have hmoves := ((movesExactly_of_run (by norm_num) hrun).1 2).2 (by decide)
  exact ⟨_, hrun, hmoves⟩

/-- The bytes of a full vector cannot be consumed, and of a larger one more bytes are
consumed than are readable. -/
theorem not_movesExactly_end :
    (∃ b, cursorMachine.run (new 4) [.data (.writeToBuffer [1, 2, 3, 4])] = some (b, [none]) ∧
      b.readAble = 4 ∧ b.moveReadIndex 4 = some b ∧ ¬ b.MovesExactly 4) ∧
    ∃ b, cursorMachine.run (new 12) [.data (.writeToBuffer [1, 2])] = some (b, [none]) ∧
      b.readAble = 2 ∧ b.moveReadIndex 3 = some { b with readIndex := 3 } ∧
        ¬ b.MovesExactly 3 := by
  constructor
  · have hsound : Sound ⟨0, 4, [1, 2, 3, 4]⟩ := by decide
    refine ⟨⟨0, 4, [1, 2, 3, 4]⟩, by decide, by decide, by decide, fun hmoves => ?_⟩
    exact absurd (hsound.moveFits (by norm_num) (by norm_num) hmoves) (by decide)
  · have hsound : Sound ⟨0, 2, [1, 2] ++ List.replicate 10 0⟩ := by decide
    refine ⟨⟨0, 2, [1, 2] ++ List.replicate 10 0⟩, by decide, by decide, by decide,
      fun hmoves => ?_⟩
    exact absurd (hsound.moveFits (by norm_num) (by norm_num) hmoves) (by decide)

end TcpBuffer

end Rocket
