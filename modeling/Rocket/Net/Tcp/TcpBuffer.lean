import Rocket.Common.Util
import Rocket.Foundation.Block

/-!
# TcpBuffer

The buffer of a connection: a vector of bytes with a read index and a write
index. The bytes between the two are readable, the bytes behind the write index
are spare, and the bytes before the read index are stale. Every operation of
`tcp_buffer.cpp` is written as it computes, with its `int` arithmetic and its
copies checked; `none` is undefined behaviour or an exception.

`Layout b stale live spare` cuts the vector into these three parts. Each
operation has one specification in terms of it, and the callers use only that.
-/

namespace Rocket

open Foundation

/-- `TcpBuffer`. The member `m_size` is never read and left out. -/
@[ext] structure TcpBuffer where
  readIndex : ℕ
  writeIndex : ℕ
  buffer : Bytes
  deriving DecidableEq, Repr

namespace TcpBuffer

/-- `TcpBuffer::TcpBuffer(int size)`: `resize` fills with zeros. -/
def new (size : ℕ) : TcpBuffer := ⟨0, 0, List.replicate size 0⟩

def readAble (b : TcpBuffer) : ℤ := b.writeIndex - b.readIndex

/-- The difference is a `size_t`, converted to `int`. -/
def writeAble (b : TcpBuffer) : ℤ := wrap ((b.buffer.length : ℤ) - b.writeIndex)

/-- A vector of negative size throws, and a copy of negative length runs out of
both vectors. -/
def resizeBuffer (b : TcpBuffer) (newSize : ℤ) : Option TcpBuffer :=
  if newSize < 0 then none
  else
    let count := min newSize b.readAble
    (copyBlock (List.replicate newSize.toNat 0) 0 b.buffer b.readIndex count).bind fun temp =>
      some ⟨0, count.toNat, temp⟩

/-- `(int)(1.5 * (m_write_index + size))`. The product is exact in a `double`;
its conversion is undefined when the result is no `int`. -/
def grownSize (b : TcpBuffer) (size : ℤ) : Option ℤ :=
  let newSize := (3 * wrap (b.writeIndex + size)).tdiv 2
  if -2 ^ 31 ≤ newSize ∧ newSize < 2 ^ 31 then some newSize else none

def writeToBuffer (b : TcpBuffer) (buf : Bytes) : Option TcpBuffer := do
  let size : ℤ := buf.length
  let b' ← if size > b.writeAble then (b.grownSize size).bind b.resizeBuffer else some b
  let buffer ← copyBlock b'.buffer b'.writeIndex buf 0 size
  some { b' with buffer := buffer, writeIndex := b'.writeIndex + buf.length }

/-- Moves the readable bytes to the front once the read index has passed a
third of the vector. -/
def adjustBuffer (b : TcpBuffer) : Option TcpBuffer :=
  if (b.readIndex : ℤ) < wrap ((b.buffer.length / 3 : ℕ) : ℤ) then some b
  else
    let count := b.readAble
    (copyBlock (List.replicate b.buffer.length 0) 0 b.buffer b.readIndex count).bind fun buffer =>
      some ⟨0, count.toNat, buffer⟩

/-- Returns the new contents of `re` and the buffer. -/
def readFromBuffer (b : TcpBuffer) (re : Bytes) (size : ℤ) : Option (Bytes × TcpBuffer) :=
  if b.readAble = 0 then some (re, b)
  else
    let readSize := if b.readAble > size then size else b.readAble
    if readSize < 0 then none
    else do
      let temp ← copyBlock (List.replicate readSize.toNat 0) 0 b.buffer b.readIndex readSize
      let b' ← adjustBuffer { b with readIndex := b.readIndex + readSize.toNat }
      some (temp, b')

/-- The new index is compared as a `size_t`, so a negative one is refused too. -/
def moveReadIndex (b : TcpBuffer) (size : ℤ) : Option TcpBuffer :=
  let j := wrap (b.readIndex + size)
  if j < 0 ∨ (b.buffer.length : ℤ) ≤ j then some b
  else adjustBuffer { b with readIndex := j.toNat }

def moveWriteIndex (b : TcpBuffer) (size : ℤ) : TcpBuffer :=
  let j := wrap (b.writeIndex + size)
  if j < 0 ∨ (b.buffer.length : ℤ) ≤ j then b
  else { b with writeIndex := j.toNat }

/-- `read` into the vector behind the write index, then `moveWriteIndex`, as
`TcpConnection::onRead` does it. -/
def receive (b : TcpBuffer) (bytes : Bytes) : Option TcpBuffer :=
  (copyBlock b.buffer b.writeIndex bytes 0 bytes.length).map fun buffer =>
    moveWriteIndex { b with buffer := buffer } bytes.length

def readable (b : TcpBuffer) : Bytes :=
  (b.buffer.drop b.readIndex).take (b.writeIndex - b.readIndex)

/-- The size of the vector after `n` more bytes have been written: unchanged
where they fit, half as much again as is needed where they do not. -/
def lengthAfterWrite (b : TcpBuffer) (n : ℕ) : ℕ :=
  if b.writeIndex + n ≤ b.buffer.length then b.buffer.length
  else 3 * (b.writeIndex + n) / 2

theorem grownSize_eq {b : TcpBuffer} {n : ℕ} (hgrow : 3 * (b.writeIndex + n) < 2 ^ 32) :
    b.grownSize n = some ((3 * (b.writeIndex + n) / 2 : ℕ) : ℤ) := by
  have hwrap : wrap ((b.writeIndex : ℤ) + (n : ℤ)) = ((b.writeIndex + n : ℕ) : ℤ) :=
    wrap_natCast_add (by omega)
  have hdiv : (3 * ((b.writeIndex + n : ℕ) : ℤ)).tdiv 2 =
      ((3 * (b.writeIndex + n) / 2 : ℕ) : ℤ) := by
    rw [Int.tdiv_eq_ediv_of_nonneg (by omega)]
    push_cast
    rfl
  rw [grownSize, hwrap]
  simp only [hdiv]
  rw [if_pos (by omega)]

/-- The indices are in order, and the size of the vector is an `int`, as the
constructor and `resizeBuffer` are given it. -/
structure Sound (b : TcpBuffer) : Prop where
  read_le_write : b.readIndex ≤ b.writeIndex
  write_le_length : b.writeIndex ≤ b.buffer.length
  length_lt_int : b.buffer.length < 2 ^ 31

/-- The indices are in order, and `moveWriteIndex` has left the last cell
spare. -/
structure Proper (b : TcpBuffer) : Prop where
  read_le_write : b.readIndex ≤ b.writeIndex
  write_lt_length : b.writeIndex < b.buffer.length
  write_lt_int : b.writeIndex < 2 ^ 31

theorem length_adjustBuffer {b b' : TcpBuffer} (h : b.adjustBuffer = some b') :
    b'.buffer.length = b.buffer.length := by
  unfold adjustBuffer at h
  split_ifs at h
  · cases h
    rfl
  · rcases Option.bind_eq_some_iff.1 h with ⟨buffer, hcopy, hb'⟩
    cases hb'
    simpa using length_copyBlock hcopy

theorem length_moveReadIndex {b b' : TcpBuffer} {n : ℤ} (h : b.moveReadIndex n = some b') :
    b'.buffer.length = b.buffer.length := by
  simp only [moveReadIndex] at h
  split_ifs at h
  · cases h
    rfl
  · have hlen := length_adjustBuffer h
    exact hlen

@[simp] theorem buffer_moveWriteIndex (b : TcpBuffer) (n : ℤ) :
    (b.moveWriteIndex n).buffer = b.buffer := by
  simp only [moveWriteIndex]
  split_ifs <;> rfl

theorem length_receive {b b' : TcpBuffer} {bytes : Bytes} (h : b.receive bytes = some b') :
    b'.buffer.length = b.buffer.length := by
  rcases Option.map_eq_some_iff.1 h with ⟨buffer, hcopy, rfl⟩
  rw [buffer_moveWriteIndex]
  exact length_copyBlock hcopy

/-- The vector of `b` is cut by its indices into stale, readable and spare
bytes. -/
structure Layout (b : TcpBuffer) (stale live spare : Bytes) : Prop where
  buffer_eq : b.buffer = stale ++ live ++ spare
  readIndex_eq : b.readIndex = stale.length
  writeIndex_eq : b.writeIndex = stale.length + live.length

theorem exists_layout {b : TcpBuffer} (hr : b.readIndex ≤ b.writeIndex)
    (hw : b.writeIndex ≤ b.buffer.length) :
    ∃ stale spare, Layout b stale b.readable spare := by
  refine ⟨b.buffer.take b.readIndex, b.buffer.drop b.writeIndex, ?_, ?_, ?_⟩
  · have hdrop : b.buffer.drop b.readIndex = b.readable ++ b.buffer.drop b.writeIndex := by
      have hsplit := List.take_append_drop (b.writeIndex - b.readIndex) (b.buffer.drop b.readIndex)
      rw [List.drop_drop, Nat.add_sub_cancel' hr] at hsplit
      exact hsplit.symm
    rw [List.append_assoc, ← hdrop, List.take_append_drop]
  · simp
    omega
  · simp only [readable, List.length_take, List.length_drop]
    omega

theorem Sound.exists_layout {b : TcpBuffer} (h : b.Sound) :
    ∃ stale spare, Layout b stale b.readable spare :=
  TcpBuffer.exists_layout h.read_le_write h.write_le_length

theorem Proper.exists_layout {b : TcpBuffer} (h : b.Proper) :
    ∃ stale spare, Layout b stale b.readable spare :=
  TcpBuffer.exists_layout h.read_le_write h.write_lt_length.le

instance (b : TcpBuffer) : Decidable b.Sound :=
  decidable_of_iff (b.readIndex ≤ b.writeIndex ∧ b.writeIndex ≤ b.buffer.length ∧
      b.buffer.length < 2 ^ 31)
    ⟨fun ⟨hr, hw, hint⟩ => ⟨hr, hw, hint⟩, fun h => ⟨h.1, h.2, h.3⟩⟩

instance (b : TcpBuffer) : Decidable b.Proper :=
  decidable_of_iff (b.readIndex ≤ b.writeIndex ∧ b.writeIndex < b.buffer.length ∧
      b.writeIndex < 2 ^ 31)
    ⟨fun ⟨hr, hw, hint⟩ => ⟨hr, hw, hint⟩, fun h => ⟨h.1, h.2, h.3⟩⟩

theorem sound_new {size : ℕ} (hsize : size < 2 ^ 31) : (new size).Sound :=
  ⟨le_rfl, Nat.zero_le _, by rwa [new, List.length_replicate]⟩

theorem proper_new {size : ℕ} (hpos : 0 < size) : (new size).Proper :=
  ⟨le_rfl, by rwa [new, List.length_replicate], by simp [new]⟩

theorem layout_new (size : ℕ) : Layout (new size) [] [] (List.replicate size 0) :=
  ⟨rfl, rfl, rfl⟩

namespace Layout

variable {b : TcpBuffer} {stale live spare : Bytes}

theorem length_eq (h : Layout b stale live spare) :
    b.buffer.length = stale.length + live.length + spare.length := by
  rw [h.buffer_eq, List.length_append, List.length_append]

theorem readable_eq (h : Layout b stale live spare) : b.readable = live := by
  rw [readable, h.buffer_eq, h.readIndex_eq, h.writeIndex_eq]
  simp

theorem readAble_eq (h : Layout b stale live spare) : b.readAble = live.length := by
  rw [readAble, h.readIndex_eq, h.writeIndex_eq]
  omega

theorem read_le_write (h : Layout b stale live spare) : b.readIndex ≤ b.writeIndex := by
  rw [h.readIndex_eq, h.writeIndex_eq]
  omega

theorem write_le_length (h : Layout b stale live spare) :
    b.writeIndex ≤ b.buffer.length := by
  rw [h.writeIndex_eq, h.length_eq]
  omega

theorem writeAble_eq (h : Layout b stale live spare) (hspare : spare.length < 2 ^ 31) :
    b.writeAble = spare.length := by
  have hlen := h.length_eq
  have hw := h.writeIndex_eq
  rw [writeAble]
  exact (wrap_eq_self (by omega) (by omega)).trans (by omega)

theorem cursor (h : Layout b stale live spare) :
    Cursor b.buffer b.readIndex (live ++ spare) := by
  rw [h.buffer_eq, h.readIndex_eq, List.append_assoc]
  exact .of_append stale (live ++ spare)

theorem readBlock_eq {x y : Bytes} (h : Layout b stale (x ++ y) spare) :
    readBlock b.buffer b.readIndex x.length = some x := by
  have hcur : Cursor b.buffer b.readIndex (x ++ (y ++ spare)) := by
    simpa using h.cursor
  exact hcur.readBlock_eq

theorem readBlock_live (h : Layout b stale live spare) :
    readBlock b.buffer b.readIndex b.readAble = some live := by
  rw [h.readAble_eq]
  exact readBlock_eq (y := []) (by simpa using h)

/-- The readable bytes at the front of a vector of the size of `b`, zeros
behind them. -/
theorem of_front {size : ℕ} {rest : Bytes} (hsize : size = live.length) :
    Layout ⟨0, size, live ++ rest⟩ [] live rest :=
  ⟨rfl, rfl, by simp [hsize]⟩

/-- Compaction keeps the readable bytes and the size of the vector, and the
stale bytes become spare. -/
theorem adjustBuffer_eq (h : Layout b stale live spare) :
    adjustBuffer b = some b ∨
      ∃ b', adjustBuffer b = some b' ∧
        Layout b' [] live (List.replicate (stale.length + spare.length) 0) := by
  unfold adjustBuffer
  split_ifs with hthird
  · exact Or.inl rfl
  · right
    have hlen := h.length_eq
    have hcopy := copyBlock_zero (List.replicate b.buffer.length 0) b.buffer live b.readIndex
      b.readAble h.readBlock_live (by simp; omega)
    refine ⟨⟨0, b.readAble.toNat, live ++ (List.replicate b.buffer.length 0).drop live.length⟩,
      by simp only [hcopy, Option.bind_some], ?_⟩
    have hrest : (List.replicate b.buffer.length (0 : UInt8)).drop live.length =
        List.replicate (stale.length + spare.length) 0 := by
      rw [List.drop_replicate]
      congr 1
      omega
    rw [hrest]
    exact of_front (by rw [h.readAble_eq]; simp)

/-- The same with the two cases merged: the read index moves down by what the
spare bytes grow. -/
theorem exists_adjustBuffer (h : Layout b stale live spare) :
    ∃ b' stale' spare', adjustBuffer b = some b' ∧ Layout b' stale' live spare' ∧
      stale'.length + spare'.length = stale.length + spare.length ∧
      stale'.length ≤ stale.length := by
  rcases h.adjustBuffer_eq with hsame | ⟨b', hb', hlay⟩
  · exact ⟨b, stale, spare, hsame, h, rfl, le_rfl⟩
  · exact ⟨b', [], _, hb', hlay, by simp, by simp⟩

/-- Passing over the bytes `x` and compacting. -/
theorem exists_adjustBuffer_advance {x y : Bytes} (h : Layout b stale (x ++ y) spare) :
    ∃ b' stale' spare',
      adjustBuffer { b with readIndex := b.readIndex + x.length } = some b' ∧
      Layout b' stale' y spare' ∧
      stale'.length + spare'.length = stale.length + x.length + spare.length ∧
      stale'.length ≤ stale.length + x.length := by
  have hmoved : Layout { b with readIndex := b.readIndex + x.length } (stale ++ x) y spare := by
    refine ⟨?_, ?_, ?_⟩
    · simp [h.buffer_eq]
    · simp [h.readIndex_eq]
    · simp only [h.writeIndex_eq, List.length_append]
      omega
  simpa only [List.length_append] using hmoved.exists_adjustBuffer

/-- Consuming the bytes `x` from the front of the readable ones. -/
theorem exists_moveReadIndex {x y : Bytes} (h : Layout b stale (x ++ y) spare)
    (hroom : stale.length + x.length < b.buffer.length)
    (hint : stale.length + x.length < 2 ^ 31) :
    ∃ b' stale' spare', moveReadIndex b x.length = some b' ∧ Layout b' stale' y spare' ∧
      stale'.length + spare'.length = stale.length + x.length + spare.length ∧
      stale'.length ≤ stale.length + x.length := by
  have hr := h.readIndex_eq
  have hj : wrap ((b.readIndex : ℤ) + (x.length : ℤ)) = (b.readIndex + x.length : ℕ) :=
    wrap_natCast_add (by omega)
  have hok : ¬ (((b.readIndex + x.length : ℕ) : ℤ) < 0 ∨
      (b.buffer.length : ℤ) ≤ ((b.readIndex + x.length : ℕ) : ℤ)) := by
    omega
  rw [moveReadIndex]
  simp only [hj]
  rw [if_neg hok, Int.toNat_natCast]
  exact h.exists_adjustBuffer_advance

/-- Growing keeps the readable bytes and drops the stale ones. -/
theorem exists_resizeBuffer (h : Layout b stale live spare) (newSize : ℕ)
    (hsize : live.length ≤ newSize) :
    ∃ b', resizeBuffer b newSize = some b' ∧
      Layout b' [] live (List.replicate (newSize - live.length) 0) := by
  have hcount : min (newSize : ℤ) b.readAble = b.readAble := by
    rw [h.readAble_eq]
    omega
  have hcopy := copyBlock_zero (List.replicate newSize 0) b.buffer live b.readIndex
    b.readAble h.readBlock_live (by simpa using hsize)
  refine ⟨⟨0, b.readAble.toNat, live ++ (List.replicate newSize 0).drop live.length⟩, ?_, ?_⟩
  · rw [resizeBuffer, if_neg (by omega)]
    simp only [hcount, Int.toNat_natCast, hcopy, Option.bind_some]
  · rw [List.drop_replicate]
    exact of_front (by rw [h.readAble_eq]; simp)

theorem exists_copy_spare (h : Layout b stale live spare) (buf : Bytes)
    (hfit : buf.length ≤ spare.length) :
    ∃ buffer, copyBlock b.buffer b.writeIndex buf 0 buf.length = some buffer ∧
      Layout { b with buffer := buffer, writeIndex := b.writeIndex + buf.length }
        stale (live ++ buf) (spare.drop buf.length) := by
  have hsplit : b.buffer = (stale ++ live) ++ spare.take buf.length ++ spare.drop buf.length := by
    rw [h.buffer_eq, List.append_assoc _ (spare.take _), List.take_append_drop]
  have hw : b.writeIndex = (stale ++ live).length := by
    rw [h.writeIndex_eq, List.length_append]
  have hread : readBlock buf 0 buf.length = some buf := by
    simpa using readBlock_append [] buf []
  refine ⟨stale ++ live ++ buf ++ spare.drop buf.length, ?_, ?_⟩
  · rw [hsplit, hw]
    exact copyBlock_append (stale ++ live) (spare.take buf.length) (spare.drop buf.length) buf buf
      0 buf.length hread (by simp [hfit])
  · refine ⟨by simp, h.readIndex_eq, ?_⟩
    simp only [hw, List.length_append]
    omega

/-- Writing appends to the readable bytes, in place when the spare bytes
suffice and into a grown vector otherwise. -/
theorem exists_writeToBuffer (h : Layout b stale live spare) (buf : Bytes)
    (hspare : spare.length < 2 ^ 31)
    (hgrow : buf.length ≤ spare.length ∨ 3 * (b.writeIndex + buf.length) < 2 ^ 32) :
    ∃ b' stale' spare', writeToBuffer b buf = some b' ∧
      Layout b' stale' (live ++ buf) spare' ∧ stale'.length ≤ stale.length ∧
      b'.buffer.length = b.lengthAfterWrite buf.length := by
  have hlen := h.length_eq
  have hw := h.writeIndex_eq
  by_cases hfit : buf.length ≤ spare.length
  · have hcond : ¬ ((buf.length : ℤ) > b.writeAble) := by
      rw [h.writeAble_eq hspare]
      omega
    obtain ⟨buffer, hcopy, hlay⟩ := h.exists_copy_spare buf hfit
    refine ⟨_, _, _, ?_, hlay, le_rfl, ?_⟩
    · simp [writeToBuffer, hcond, hcopy]
    · rw [hlay.length_eq, lengthAfterWrite, if_pos (by omega), List.length_append,
        List.length_drop]
      omega
  · have hsize := hgrow.resolve_left hfit
    have hcond : (buf.length : ℤ) > b.writeAble := by
      rw [h.writeAble_eq hspare]
      omega
    obtain ⟨b₁, hresize, hlay₁⟩ :=
      h.exists_resizeBuffer (3 * (b.writeIndex + buf.length) / 2) (by omega)
    obtain ⟨buffer, hcopy, hlay⟩ := hlay₁.exists_copy_spare buf (by simp; omega)
    refine ⟨_, _, _, ?_, hlay, by simp, ?_⟩
    · simp only [writeToBuffer, hcond, if_true, grownSize_eq hsize, Option.bind_some, hresize,
        hcopy, Option.bind_eq_bind]
    · rw [hlay.length_eq, lengthAfterWrite, if_neg (by omega), List.length_append,
        List.length_drop, List.length_replicate, List.length_nil]
      omega

/-- Receiving bytes that leave a spare cell appends them to the readable
ones. -/
theorem exists_receive (h : Layout b stale live spare) (bytes : Bytes)
    (hfit : bytes.length < spare.length) (hint : b.writeIndex + bytes.length < 2 ^ 31) :
    ∃ b', receive b bytes = some b' ∧
      Layout b' stale (live ++ bytes) (spare.drop bytes.length) := by
  obtain ⟨buffer, hcopy, hlay⟩ := h.exists_copy_spare bytes hfit.le
  have hlen := hlay.length_eq
  have hw := h.writeIndex_eq
  simp only [List.length_append, List.length_drop] at hlen
  have hj : wrap ((b.writeIndex : ℤ) + (bytes.length : ℤ)) =
      ((b.writeIndex + bytes.length : ℕ) : ℤ) := wrap_natCast_add (by omega)
  refine ⟨_, by rw [receive, hcopy, Option.map_some], ?_⟩
  simp only [moveWriteIndex, hj]
  rw [if_neg (by omega), Int.toNat_natCast]
  exact hlay

/-- Bytes that fill the last cell are written into the vector, but
`moveWriteIndex` refuses to move behind them. -/
theorem exists_receive_full (h : Layout b stale live spare) (bytes : Bytes)
    (hfit : bytes.length = spare.length) (hint : b.buffer.length < 2 ^ 31) :
    ∃ b', receive b bytes = some b' ∧ Layout b' stale live bytes := by
  obtain ⟨buffer, hcopy, hlay⟩ := h.exists_copy_spare bytes hfit.le
  have hlen := h.length_eq
  have hlen' := length_copyBlock hcopy
  have hw := h.writeIndex_eq
  have hj : wrap ((b.writeIndex : ℤ) + (bytes.length : ℤ)) =
      ((b.writeIndex + bytes.length : ℕ) : ℤ) := wrap_natCast_add (by omega)
  refine ⟨{ b with buffer := buffer }, ?_, ?_, h.readIndex_eq, h.writeIndex_eq⟩
  · rw [receive, hcopy, Option.map_some]
    simp only [moveWriteIndex, hj]
    rw [if_pos (by omega)]
  · have hbuffer := hlay.buffer_eq
    rw [List.drop_of_length_le hfit.ge, List.append_nil, ← List.append_assoc] at hbuffer
    exact hbuffer

end Layout

namespace Sound

variable {b b' : TcpBuffer} {buf : Bytes}

/-- The size to grow to is computed as an `int`, which throws or is undefined when
it overflows. -/
theorem grownSize_resizeBuffer (hb : b.Sound) (hbuf : buf.length < 2 ^ 31)
    (h : (b.grownSize buf.length).bind b.resizeBuffer = some b') :
    3 * (b.writeIndex + buf.length) < 2 ^ 32 := by
  have hw := hb.write_le_length
  have hint := hb.length_lt_int
  rcases Option.bind_eq_some_iff.1 h with ⟨newSize, hgrown, hresize⟩
  simp only [grownSize, Option.ite_none_right_eq_some, Option.some.injEq] at hgrown
  obtain ⟨hrange, hnew⟩ := hgrown
  have hnonneg : 0 ≤ newSize := by
    by_contra hneg
    rw [resizeBuffer, if_pos (lt_of_not_ge hneg)] at hresize
    cases hresize
  by_cases hbig : (b.writeIndex : ℤ) + buf.length < 2 ^ 31
  · rw [wrap_eq_self (by omega) hbig, Int.tdiv_eq_ediv_of_nonneg (by omega)] at hrange
    omega
  · rw [wrap_eq_sub (by omega) (by omega)] at hnew
    have hneg : 3 * ((b.writeIndex : ℤ) + buf.length - 2 ^ 32) =
        -(3 * (2 ^ 32 - (b.writeIndex + buf.length))) := by omega
    rw [hneg, Int.neg_tdiv, Int.tdiv_eq_ediv_of_nonneg (by omega)] at hnew
    omega

theorem writeToBuffer (hb : b.Sound) (hbuf : buf.length < 2 ^ 31)
    (h : b.writeToBuffer buf = some b') : b'.Sound ∧ b'.readable = b.readable ++ buf := by
  obtain ⟨stale, spare, hlay⟩ := hb.exists_layout
  have hlen := hlay.length_eq
  have hwrite := hlay.writeIndex_eq
  have hint := hb.length_lt_int
  have hspare : spare.length < 2 ^ 31 := by omega
  have hgrow : buf.length ≤ spare.length ∨ 3 * (b.writeIndex + buf.length) < 2 ^ 32 := by
    by_cases hfit : buf.length ≤ spare.length
    · exact Or.inl hfit
    · right
      have hcond : (buf.length : ℤ) > b.writeAble := by
        rw [hlay.writeAble_eq hspare]
        omega
      simp only [TcpBuffer.writeToBuffer, hcond, if_true, Option.bind_eq_bind] at h
      rcases Option.bind_eq_some_iff.1 h with ⟨b₁, hresize, _⟩
      exact hb.grownSize_resizeBuffer hbuf hresize
  obtain ⟨b₁, stale', spare', hb₁, hlay', _, hsize⟩ := hlay.exists_writeToBuffer buf hspare hgrow
  rw [h] at hb₁
  cases hb₁
  refine ⟨⟨hlay'.read_le_write, hlay'.write_le_length, ?_⟩, hlay'.readable_eq⟩
  rw [hsize, lengthAfterWrite]
  split_ifs <;> omega

end Sound

namespace Proper

variable {b : TcpBuffer}

theorem adjustBuffer (hb : b.Proper) :
    ∃ b', b.adjustBuffer = some b' ∧ b'.Proper ∧ b'.readAble = b.readAble := by
  obtain ⟨stale, spare, hlay⟩ := hb.exists_layout
  obtain ⟨hr, hw, hint⟩ := hb
  obtain ⟨b', stale', spare', hb', hlay', htotal, hstale⟩ := hlay.exists_adjustBuffer
  rw [hlay.length_eq] at hw
  rw [hlay.writeIndex_eq] at hw hint
  refine ⟨b', hb', ⟨hlay'.read_le_write, ?_, ?_⟩, hlay'.readAble_eq.trans hlay.readAble_eq.symm⟩
  · rw [hlay'.length_eq, hlay'.writeIndex_eq]
    omega
  · rw [hlay'.writeIndex_eq]
    omega

/-- The read index moves by at most the readable bytes, in either direction. A
move to before the first byte is refused. -/
theorem moveReadIndex (hb : b.Proper) {n : ℤ} (hlo : -2 ^ 31 ≤ n) (hhi : n ≤ b.readAble) :
    ∃ b', b.moveReadIndex n = some b' ∧ b'.Proper ∧
      b'.readAble = if 0 ≤ b.readIndex + n then b.readAble - n else b.readAble := by
  obtain ⟨hr, hw, hint⟩ := hb
  have hle : b.readIndex + n ≤ b.writeIndex := by
    rw [readAble] at hhi
    omega
  have hj : wrap (b.readIndex + n) = b.readIndex + n := wrap_eq_self (by omega) (by omega)
  simp only [TcpBuffer.moveReadIndex, hj]
  by_cases hneg : (b.readIndex : ℤ) + n < 0
  · rw [if_pos (Or.inl hneg), if_neg (not_le_of_gt hneg)]
    exact ⟨b, rfl, ⟨hr, hw, hint⟩, rfl⟩
  · have hmoved : Proper { b with readIndex := ((b.readIndex : ℤ) + n).toNat } := by
      refine ⟨?_, hw, hint⟩
      simp only
      omega
    obtain ⟨b', hb', hproper, hread⟩ := hmoved.adjustBuffer
    rw [if_neg (by omega), if_pos (le_of_not_gt hneg)]
    refine ⟨b', hb', hproper, hread.trans ?_⟩
    simp only [readAble]
    omega

theorem receive {b' : TcpBuffer} {bytes : Bytes} (hb : b.Proper)
    (hint : b.buffer.length < 2 ^ 31) (hfit : (bytes.length : ℤ) ≤ b.writeAble)
    (h : b.receive bytes = some b') : b'.Proper := by
  obtain ⟨hr, hw, _⟩ := hb
  rcases Option.map_eq_some_iff.1 h with ⟨buffer, hcopy, heq⟩
  have hlen := length_copyBlock hcopy
  have hfree : b.writeAble = b.buffer.length - b.writeIndex := wrap_eq_self (by omega) (by omega)
  have hj : wrap ((b.writeIndex : ℤ) + bytes.length) = b.writeIndex + bytes.length :=
    wrap_eq_self (by omega) (by omega)
  subst heq
  simp only [moveWriteIndex, hj]
  split_ifs with hrange
  · exact ⟨hr, by simpa only [hlen] using hw, by simp only; omega⟩
  · simp only [not_or, not_lt, not_le, hlen] at hrange
    refine ⟨?_, ?_, ?_⟩ <;> simp only [hlen] <;> omega

end Proper

end TcpBuffer

end Rocket
