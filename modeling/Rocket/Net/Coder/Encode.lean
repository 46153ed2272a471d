import Rocket.Net.Coder.TinyPBProtocol
import Rocket.Net.Tcp.TcpBuffer

/-!
# TinyPBCoder, encoding

`encodeTinyPB` computes the length of the packet as an `int` and allocates that
many bytes, so it is defined for packets shorter than `2^31` bytes. `encode`
appends the packets of its messages to the buffer one after the other. The
messages are shared with the caller, which sees the fields filled in.
-/

namespace Rocket

namespace TinyPBCoder

open TinyPBProtocol

/-- The packet and the message as it is left. -/
def encodeTinyPB (message : TinyPBProtocol) : Option (Bytes × TinyPBProtocol) :=
  let m := message.withMsgId
  if m.packetLength < 2 ^ 31 then some (m.packet, m.withLengths) else none

/-- The messages as they are left and the buffer. -/
def encode : List TinyPBProtocol → TcpBuffer → Option (List TinyPBProtocol × TcpBuffer)
  | [], b => some ([], b)
  | m :: messages, b => do
      let (buf, m') ← encodeTinyPB m
      let b' ← if buf.length ≠ 0 then b.writeToBuffer buf else some b
      let (messages', b'') ← encode messages b'
      some (m' :: messages', b'')

theorem encodeTinyPB_eq_some_iff (m : TinyPBProtocol) (s : Bytes × TinyPBProtocol) :
    encodeTinyPB m = some s ↔
      m.withMsgId.packetLength < 2 ^ 31 ∧ (m.withMsgId.packet, m.withMsgId.withLengths) = s := by
  simp only [encodeTinyPB, Option.ite_none_right_eq_some, Option.some.injEq]

/-- The vector of the buffer stays smaller than `limit` while the packets of the
messages are written to it. -/
def StaysBelow (limit : ℕ) : List TinyPBProtocol → TcpBuffer → Prop
  | [], b => b.buffer.length < limit
  | m :: messages, b =>
      b.buffer.length < limit ∧ b.lengthAfterWrite m.withMsgId.packetLength < limit ∧
        ∀ b' ∈ b.writeToBuffer m.withMsgId.packet, StaysBelow limit messages b'

instance decidableStaysBelow (limit : ℕ) :
    (messages : List TinyPBProtocol) → (b : TcpBuffer) → Decidable (StaysBelow limit messages b)
  | [], b => inferInstanceAs (Decidable (b.buffer.length < limit))
  | m :: messages, b =>
      have := decidableStaysBelow limit messages
      inferInstanceAs (Decidable (_ ∧ _ ∧ ∀ b' ∈ b.writeToBuffer m.withMsgId.packet, _))

/-- A packet is not empty, so it is written whenever it can be allocated. -/
theorem encode_cons (m : TinyPBProtocol) (messages : List TinyPBProtocol) (b : TcpBuffer) :
    encode (m :: messages) b =
      if m.withMsgId.packetLength < 2 ^ 31 then
        (b.writeToBuffer m.withMsgId.packet).bind fun b' =>
          (encode messages b').map fun r => (m.withMsgId.withLengths :: r.1, r.2)
      else none := by
  have hge := m.withMsgId.packetLength_ge
  have hne : m.withMsgId.packet.length ≠ 0 := by
    rw [length_packet]
    omega
  by_cases hlen : m.withMsgId.packetLength < 2 ^ 31
  · rw [encode, encodeTinyPB, if_pos hlen, if_pos hlen, Option.bind_eq_bind, Option.bind_some]
    simp only [if_pos hne, Option.bind_eq_bind, Option.map_eq_bind]
    rfl
  · rw [encode, encodeTinyPB, if_neg hlen, if_neg hlen]
    rfl

theorem encode_spec {messages messages' : List TinyPBProtocol} {b b' : TcpBuffer} (hb : b.Sound)
    (h : encode messages b = some (messages', b')) :
    b'.Sound ∧ b'.readable = b.readable ++ stream messages ∧
      messages' = messages.map fun m => m.withMsgId.withLengths := by
  induction messages generalizing b messages' with
  | nil =>
      cases h
      exact ⟨hb, by simp, rfl⟩
  | cons m messages ih =>
      rw [encode_cons, Option.ite_none_right_eq_some, Option.bind_eq_some_iff] at h
      obtain ⟨hlen, b₁, hwrite, hmap⟩ := h
      rcases Option.map_eq_some_iff.1 hmap with ⟨⟨messages'', b₂⟩, hrest, heq⟩
      cases heq
      obtain ⟨hb₁, hread⟩ := hb.writeToBuffer (by rwa [length_packet]) hwrite
      obtain ⟨hb', hread', hmessages⟩ := ih hb₁ hrest
      refine ⟨hb', ?_, ?_⟩
      · rw [hread', hread, stream_cons, List.append_assoc]
      · rw [hmessages, List.map_cons]

theorem exists_encode {messages : List TinyPBProtocol} {b : TcpBuffer} (hb : b.Sound)
    (hbelow : StaysBelow (2 ^ 30) messages b) :
    ∃ messages' b', encode messages b = some (messages', b') := by
  induction messages generalizing b with
  | nil => exact ⟨[], b, rfl⟩
  | cons m messages ih =>
      obtain ⟨_, hafter, hrest⟩ := hbelow
      have hpacket := m.withMsgId.length_packet
      have hneed : 3 * (b.writeIndex + m.withMsgId.packet.length) < 2 ^ 32 := by
        rw [TcpBuffer.lengthAfterWrite] at hafter
        split_ifs at hafter <;> omega
      obtain ⟨stale, spare, hlay⟩ := hb.exists_layout
      have hlen := hlay.length_eq
      have hint := hb.length_lt_int
      obtain ⟨b₁, _, _, hwrite, _⟩ :=
        hlay.exists_writeToBuffer m.withMsgId.packet (by omega) (Or.inr hneed)
      have hb₁ := (hb.writeToBuffer (by omega) hwrite).1
      obtain ⟨messages', b', hencode⟩ := ih hb₁ (hrest b₁ hwrite)
      refine ⟨m.withMsgId.withLengths :: messages', b', ?_⟩
      rw [encode_cons, if_pos (by omega), hwrite, Option.bind_some, hencode, Option.map_some]

theorem mapM_encodeTinyPB {messages : List TinyPBProtocol} {sent : List (Bytes × TinyPBProtocol)}
    (h : messages.mapM encodeTinyPB = some sent) :
    (∀ m ∈ messages, m.withMsgId.packetLength < 2 ^ 31) ∧
      sent = messages.map fun m => (m.withMsgId.packet, m.withMsgId.withLengths) := by
  induction messages generalizing sent with
  | nil =>
      rw [List.mapM_nil] at h
      cases h
      exact ⟨List.forall_mem_nil _, rfl⟩
  | cons m messages ih =>
      rw [List.mapM_cons] at h
      simp only [Option.bind_eq_bind, Option.bind_eq_some_iff, Option.pure_def,
        Option.some.injEq] at h
      obtain ⟨s, hs, sent', hrest, rfl⟩ := h
      obtain ⟨hlen, heq⟩ := (encodeTinyPB_eq_some_iff m s).1 hs
      obtain ⟨hlens, hsent⟩ := ih hrest
      refine ⟨List.forall_mem_cons.2 ⟨hlen, hlens⟩, ?_⟩
      rw [List.map_cons, ← hsent, heq]

theorem sent_eq_of_mapM {messages : List TinyPBProtocol} {sent : List (Bytes × TinyPBProtocol)}
    (h : messages.mapM encodeTinyPB = some sent) :
    sent = messages.map fun m => (m.withMsgId.packet, m.withMsgId.withLengths) :=
  (mapM_encodeTinyPB h).2

end TinyPBCoder

end Rocket
