import Rocket.Foundation.Loop
import Rocket.Foundation.Traced
import Rocket.Net.Coder.TinyPBProtocol
import Rocket.Net.Tcp.TcpBuffer

/-!
# TinyPBCoder, decoding

`decode` is a loop. Each pass copies the vector of the buffer, searches the copy
for a packet, moves the read index by the length of the packet found, and parses
it. All integers from the wire are used as offsets into the copy as they come,
so every access is recorded: a pass is a `Traced` computation, which is
undefined when an access leaves the copy or one of the arrays on the stack.
-/

namespace Rocket

open Foundation

namespace TinyPBCoder

open TinyPBProtocol

inductive Access where
  /-- `n` bytes of the copy, from `k` on -/
  | load (k n : ℤ)
  /-- a `memcpy` of `n` bytes of the copy, from `k` on, into an array of `cap` bytes -/
  | copy (k n : ℤ) (cap : ℕ)
  /-- a C string is read from an array, which may have no terminator -/
  | text (terminated : Bool)
  deriving DecidableEq, Repr

/-- The access stays between the offsets `lo` and `hi` of the copy, and inside
its array. -/
def Access.InBounds (lo hi : ℕ) : Access → Prop
  | .load k n => (lo : ℤ) ≤ k ∧ k < hi ∧ 0 ≤ n ∧ k + n ≤ hi
  | .copy k n cap => (lo : ℤ) ≤ k ∧ k < hi ∧ 0 ≤ n ∧ k + n ≤ hi ∧ n ≤ cap
  | .text terminated => terminated = true

/-- `temp[k]` -/
def loadByte (temp : Bytes) (k : ℤ) : Traced Access UInt8 :=
  .access (.load k 1) (readCell temp k)

/-- `getInt32FromNetByte(&temp[k])` -/
def loadInt32 (temp : Bytes) (k : ℤ) : Traced Access Int32 :=
  .access (.load k 4) ((readBlock temp k 4).map getInt32FromNetByte)

/-- `std::string(&temp[k], n)`, which throws when `n` is negative. -/
def loadString (temp : Bytes) (k n : ℤ) : Traced Access Bytes :=
  .access (.load k n) (readBlock temp k n)

/-- `memcpy(&array[0], &temp[k], n)` into a zeroed array of `cap` bytes. -/
def copyArray (temp : Bytes) (k n : ℤ) (cap : ℕ) : Traced Access Bytes :=
  .access (.copy k n cap) <|
    if n ≤ cap then
      (readBlock temp k n).map fun bytes => bytes ++ List.replicate (cap - bytes.length) 0
    else none

/-- `std::string(array)`: the bytes before the first NUL. -/
def cString (array : Bytes) : Traced Access Bytes :=
  .access (.text (0 ∈ array)) (if 0 ∈ array then some (array.takeWhile (· ≠ 0)) else none)

/-- What the search leaves in `start_index`, `end_index` and `pk_len`. -/
structure Found where
  startIndex : ℕ
  endIndex : ℤ
  pkLen : Int32
  deriving DecidableEq, Repr

/-- The body of the `for` loop, behind a start mark at `i`. A packet that is
not complete, or does not end in an end mark, is passed over. -/
def probeMark (temp : Bytes) (writeIndex i : ℕ) : Traced Access (Option Found) := do
  let pkLen ← loadInt32 temp (i + 1 : ℕ)
  let j := wrap (i + pkLen.toInt - 1)
  if j ≥ writeIndex then pure none
  else
    let e ← loadByte temp j
    pure (if e = pbEnd then some ⟨i, j, pkLen⟩ else none)

/-- The body of the `for` loop, at the offset `i`. -/
def probe (temp : Bytes) (writeIndex i : ℕ) : Traced Access (Option Found) := do
  let c ← loadByte temp i
  if c = pbStart ∧ i + 1 < writeIndex then probeMark temp writeIndex i else pure none

/-- The `for` loop that searches a packet between the two indices. -/
def scan (temp : Bytes) (readIndex writeIndex : ℕ) : Traced Access (Option Found) :=
  .search (probe temp writeIndex) (writeIndex - readIndex) readIndex

/-- A text with its length in front: the length, the text, and the offset
behind it. -/
structure Field where
  len : Int32
  text : Bytes
  next : ℤ
  deriving DecidableEq, Repr

/-- The text whose length stands at `k`, taken through an array of `cap` bytes. -/
def loadField (temp : Bytes) (k : ℤ) (cap : ℕ) : Traced Access Field := do
  let len ← loadInt32 temp k
  let index := wrap (k + 4)
  let array ← copyArray temp index len.toInt cap
  let text ← cString array
  pure ⟨len, text, wrap (index + len.toInt)⟩

/-- The message of the packet found, or `none` where the source logs a parse
error and goes on. -/
def parse (temp : Bytes) (f : Found) : Traced Access (Option TinyPBProtocol) :=
  let msgIdLenIndex := wrap (f.startIndex + 1 + 4)
  if msgIdLenIndex ≥ f.endIndex then pure none
  else do
    let msgId ← loadField temp msgIdLenIndex 100
    let methodNameLenIndex := msgId.next
    if methodNameLenIndex ≥ f.endIndex then pure none
    else
      let methodName ← loadField temp methodNameLenIndex 512
      let errCodeIndex := methodName.next
      if errCodeIndex ≥ f.endIndex then pure none
      else
        let errCode ← loadInt32 temp errCodeIndex
        let errInfoLenIndex := wrap (errCodeIndex + 4)
        if errInfoLenIndex ≥ f.endIndex then pure none
        else
          let errInfo ← loadField temp errInfoLenIndex 512
          let pbDataLen := wrap (f.pkLen.toInt - methodName.len.toInt - msgId.len.toInt -
            errInfo.len.toInt - 2 - 24)
          let pbData ← loadString temp errInfo.next pbDataLen
          pure (some
            { msgId := msgId.text
              pkLen := f.pkLen
              msgIdLen := msgId.len
              methodNameLen := methodName.len
              methodName := methodName.text
              errCode := errCode
              errInfoLen := errInfo.len
              errInfo := errInfo.text
              pbData := pbData
              parseSuccess := true })

/-- One pass: `none` when the search has read all bytes, otherwise the buffer
and the message, if the packet found holds one. -/
def decodePass (b : TcpBuffer) : Traced Access (Option (TcpBuffer × Option TinyPBProtocol)) := do
  let found ← scan b.buffer b.readIndex b.writeIndex
  match found with
  | none => pure none
  | some f =>
      let b' ← Traced.lift (b.moveReadIndex (wrap (f.endIndex - f.startIndex + 1)))
      let message ← parse b.buffer f
      pure (some (b', message))

/-- The body of the `while (1)` loop, on the buffer and `out_messages`. -/
def decodeBody (s : TcpBuffer × List TinyPBProtocol) :
    Pass (TcpBuffer × List TinyPBProtocol) (TcpBuffer × List TinyPBProtocol) :=
  match (decodePass s.1).value with
  | none => .undefined
  | some none => .leave s
  | some (some (b, message)) => .again (b, s.2 ++ message.toList)

/-- `TinyPBCoder::decode`, for at most `fuel` passes. -/
def decode (fuel : ℕ) (outMessages : List TinyPBProtocol) (b : TcpBuffer) :
    Option (TcpBuffer × List TinyPBProtocol) :=
  Loop.run decodeBody fuel (b, outMessages)

end TinyPBCoder

end Rocket
