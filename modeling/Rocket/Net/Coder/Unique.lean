import Rocket.Net.Coder.Encode
import Rocket.Net.Coder.Pieces

/-!
# The wire format is uniquely decodable

A packet is a code word: its length field says where it ends, each text has its
length in front, and the length of the payload is what is left. So the packets of
a list of messages determine what each of the messages carries.
-/

namespace Rocket

open Foundation

namespace TinyPBProtocol

/-- Two messages carry the same contents; a message without an id carries the id
that is filled in. -/
structure SameContents (m m' : TinyPBProtocol) : Prop where
  msgId_eq : m.withMsgId.msgId = m'.withMsgId.msgId
  methodName_eq : m.methodName = m'.methodName
  errCode_eq : m.errCode = m'.errCode
  errInfo_eq : m.errInfo = m'.errInfo
  pbData_eq : m.pbData = m'.pbData

theorem sameContents_of_pieces {m m' : TinyPBProtocol}
    (h : m.withMsgId.pieces = m'.withMsgId.pieces) : SameContents m m' := by
  simp only [pieces, methodName_withMsgId, errCode_withMsgId, errInfo_withMsgId,
    pbData_withMsgId, Pieces.mk.injEq] at h
  obtain ⟨hid, hname, hcode, hinfo, hdata, _⟩ := h
  exact ⟨hid, hname, hcode, hinfo, hdata⟩

end TinyPBProtocol

namespace TinyPBCoder

open TinyPBProtocol

/-- A frame, with its message as it is left: it lies between its marks, and its
length field says how long it is. -/
structure Framed (s : Bytes × TinyPBProtocol) : Prop where
  starts : s.1.head? = some pbStart
  ends : s.1.getLast? = some pbEnd
  lengthField : (readBlock s.1 1 4).map getInt32FromNetByte = some s.2.pkLen
  length_eq : s.2.pkLen.toInt = s.1.length

theorem framed_packet {m : TinyPBProtocol} (hfits : m.withMsgId.Fits) :
    Framed (m.withMsgId.packet, m.withMsgId.withLengths) := by
  refine ⟨head?_packet _, getLast?_packet _, ?_, ?_⟩
  · have hcur : Cursor m.withMsgId.packet 0 m.withMsgId.packet := ⟨le_rfl, by omega, rfl⟩
    have hread : readBlock m.withMsgId.packet 1 4 =
        some (wordBytes (.ofNat m.withMsgId.packetLength)) :=
      (hcur.advance (l := [pbStart]) rfl).readBlock_eq
    rw [hread, Option.map_some, getInt32FromNetByte_wordBytes]
    rfl
  · rw [length_packet]
    exact toInt_ofNat_of_lt hfits

/-- The frames of two lists of messages, one behind the other, are the same bytes
only if the lists carry the same. Every frame has its marks and its length, and no
frame is a proper prefix of another. -/
theorem encodeTinyPB_unique {messages messages' : List TinyPBProtocol}
    {sent sent' : List (Bytes × TinyPBProtocol)} (hsent : messages.mapM encodeTinyPB = some sent)
    (hsent' : messages'.mapM encodeTinyPB = some sent') :
    (sent.flatMap Prod.fst = sent'.flatMap Prod.fst →
      messages.length = messages'.length ∧ List.Forall₂ SameContents messages messages') ∧
    (∀ s ∈ sent, Framed s) ∧
    ∀ s ∈ sent, ∀ s' ∈ sent', s.1 <+: s'.1 → s.1 = s'.1 := by
  obtain ⟨hfits, rfl⟩ := mapM_encodeTinyPB hsent
  obtain ⟨hfits', rfl⟩ := mapM_encodeTinyPB hsent'
  refine ⟨fun heq => ?_, List.forall_mem_map.2 fun m hm => framed_packet (hfits m hm), ?_⟩
  · rw [List.flatMap_map, List.flatMap_map, ← List.flatMap_map withMsgId packet,
      ← List.flatMap_map withMsgId packet] at heq
    have hne (m : TinyPBProtocol) (_ : m.Fits) : m.packet ≠ [] := List.cons_ne_nil _ _
    have hsame := determines_packet.flatMap hne (List.forall_mem_map.2 hfits)
      (List.forall_mem_map.2 hfits') heq
    rw [List.forall₂_map_left_iff, List.forall₂_map_right_iff] at hsame
    exact ⟨hsame.length_eq, hsame.imp fun m m' => sameContents_of_pieces⟩
  · refine List.forall_mem_map.2 fun m hm => List.forall_mem_map.2 fun m' hm' hle => ?_
    exact determines_packet.eq_of_prefix (hfits m hm) (hfits' m' hm') hle

/-- Two messages whose texts and payloads hold marks and NUL bytes, and the same
messages with the id filled in by the sender. -/
theorem encodeTinyPB_unique_marks :
    let messages : List TinyPBProtocol :=
      [{ pbData := [2, 0, 3] }, { msgId := [3, 2], methodName := [0, 2], errCode := -1 }]
    let messages' : List TinyPBProtocol :=
      [{ msgId := ascii "123456789", pbData := [2, 0, 3] },
        { msgId := [3, 2], methodName := [0, 2], errCode := -1 }]
    ∃ sent, messages.mapM encodeTinyPB = some sent ∧ messages'.mapM encodeTinyPB = some sent ∧
      messages.length = messages'.length ∧ List.Forall₂ SameContents messages messages' ∧
        ∀ s ∈ sent, Framed s := by
  intro messages messages'
  have hsent : messages.mapM encodeTinyPB =
      some (messages.map fun m => (m.withMsgId.packet, m.withMsgId.withLengths)) := by decide
  have hsent' : messages'.mapM encodeTinyPB =
      some (messages.map fun m => (m.withMsgId.packet, m.withMsgId.withLengths)) := by decide
  obtain ⟨hsame, hframed, _⟩ := encodeTinyPB_unique hsent hsent'
  obtain ⟨hlen, hcontents⟩ := hsame rfl
  exact ⟨_, hsent, hsent', hlen, hcontents, hframed⟩

end TinyPBCoder

end Rocket
