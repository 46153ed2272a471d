import Rocket.Common.Util

/-!
# TinyPBProtocol

The message of the TinyPB protocol, with its defaults, and its packet: the byte
string that carries it. `packet` is the concatenation of the pieces that
`encodeTinyPB` copies one behind the other.
-/

namespace Rocket

open Foundation

/-- `TinyPBProtocol`, together with the `m_msg_id` of its base class. -/
@[ext] structure TinyPBProtocol where
  msgId : Bytes := []
  pkLen : Int32 := 0
  msgIdLen : Int32 := 0
  methodNameLen : Int32 := 0
  methodName : Bytes := []
  errCode : Int32 := 0
  errInfoLen : Int32 := 0
  errInfo : Bytes := []
  pbData : Bytes := []
  checkSum : Int32 := 0
  parseSuccess : Bool := false
  deriving DecidableEq, Repr

namespace TinyPBProtocol

def pbStart : UInt8 := 0x02

def pbEnd : UInt8 := 0x03

/-- An empty `m_msg_id` is replaced before a message is encoded. -/
def withMsgId (m : TinyPBProtocol) : TinyPBProtocol :=
  if m.msgId = [] then { m with msgId := ascii "123456789" } else m

@[simp] theorem methodName_withMsgId (m : TinyPBProtocol) :
    m.withMsgId.methodName = m.methodName := by
  unfold withMsgId
  split_ifs <;> rfl

@[simp] theorem errCode_withMsgId (m : TinyPBProtocol) : m.withMsgId.errCode = m.errCode := by
  unfold withMsgId
  split_ifs <;> rfl

@[simp] theorem errInfo_withMsgId (m : TinyPBProtocol) : m.withMsgId.errInfo = m.errInfo := by
  unfold withMsgId
  split_ifs <;> rfl

@[simp] theorem pbData_withMsgId (m : TinyPBProtocol) : m.withMsgId.pbData = m.pbData := by
  unfold withMsgId
  split_ifs <;> rfl

/-- The length of the packet of `m`: two marks, six integers and four strings. -/
def packetLength (m : TinyPBProtocol) : ℕ :=
  2 + 24 + m.msgId.length + m.methodName.length + m.errInfo.length + m.pbData.length

/-- The packet of `m`. -/
def packet (m : TinyPBProtocol) : Bytes :=
  [pbStart] ++ (wordBytes (.ofNat m.packetLength) ++
    (wordBytes (.ofNat m.msgId.length) ++ (m.msgId ++
    (wordBytes (.ofNat m.methodName.length) ++ (m.methodName ++
    (wordBytes m.errCode ++
    (wordBytes (.ofNat m.errInfo.length) ++ (m.errInfo ++
    (m.pbData ++ (wordBytes 1 ++ [pbEnd]))))))))))

/-- `m` with the lengths of its packet filled in. -/
def withLengths (m : TinyPBProtocol) : TinyPBProtocol :=
  { m with
    pkLen := .ofNat m.packetLength
    msgIdLen := .ofNat m.msgId.length
    methodNameLen := .ofNat m.methodName.length
    errInfoLen := .ofNat m.errInfo.length
    parseSuccess := true }

@[simp] theorem length_packet (m : TinyPBProtocol) : m.packet.length = m.packetLength := by
  simp only [packet, packetLength, List.length_append, List.length_singleton, length_wordBytes]
  omega

theorem head?_packet (m : TinyPBProtocol) : m.packet.head? = some pbStart := rfl

theorem getLast?_packet (m : TinyPBProtocol) : m.packet.getLast? = some pbEnd := by
  simp [packet, List.getLast?_append, List.getLast?_cons]

theorem packetLength_ge (m : TinyPBProtocol) : 26 ≤ m.packetLength := by
  unfold packetLength
  omega

/-- The three text fields hold no NUL byte and fit the arrays of the decoder,
with their terminators. -/
structure Encodable (m : TinyPBProtocol) : Prop where
  msgId_le : m.msgId.length ≤ 99
  methodName_le : m.methodName.length ≤ 511
  errInfo_le : m.errInfo.length ≤ 511
  msgId_nul : 0 ∉ m.msgId
  methodName_nul : 0 ∉ m.methodName
  errInfo_nul : 0 ∉ m.errInfo

instance (m : TinyPBProtocol) : Decidable m.Encodable :=
  decidable_of_iff (m.msgId.length ≤ 99 ∧ m.methodName.length ≤ 511 ∧ m.errInfo.length ≤ 511 ∧
      0 ∉ m.msgId ∧ 0 ∉ m.methodName ∧ 0 ∉ m.errInfo)
    ⟨fun ⟨hid, hname, hinfo, hid', hname', hinfo'⟩ => ⟨hid, hname, hinfo, hid', hname', hinfo'⟩,
      fun h => ⟨h.1, h.2, h.3, h.4, h.5, h.6⟩⟩

theorem Encodable.withMsgId {m : TinyPBProtocol} (h : m.Encodable) : m.withMsgId.Encodable := by
  unfold TinyPBProtocol.withMsgId
  split_ifs
  · have hlen : (ascii "123456789").length ≤ 99 := by decide
    have hnul : 0 ∉ ascii "123456789" := by decide
    exact { h with msgId_le := hlen, msgId_nul := hnul }
  · exact h

/-- The message that arrives when `m` is sent: `m` with its message id and its
lengths filled in. The check sum is not transported. -/
def delivered (m : TinyPBProtocol) : TinyPBProtocol :=
  { m.withMsgId.withLengths with checkSum := 0 }

theorem delivered_eq {m : TinyPBProtocol} (hid : m.msgId ≠ []) :
    m.delivered = { m.withLengths with checkSum := 0 } := by
  rw [delivered, withMsgId, if_neg hid]

def stream (messages : List TinyPBProtocol) : Bytes :=
  messages.flatMap fun m => m.withMsgId.packet

@[simp] theorem stream_nil : stream [] = [] := rfl

@[simp] theorem stream_cons (m : TinyPBProtocol) (messages : List TinyPBProtocol) :
    stream (m :: messages) = m.withMsgId.packet ++ stream messages := rfl

theorem stream_append (messages messages' : List TinyPBProtocol) :
    stream (messages ++ messages') = stream messages ++ stream messages' :=
  List.flatMap_append

end TinyPBProtocol

end Rocket
