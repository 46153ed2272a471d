import Rocket.Net.Coder.Encode
import Rocket.Net.Coder.Field
import Rocket.Net.Coder.Pass

/-!
# Decoding a stream of packets

On a copy that holds the packet of an encodable message at the read index, the
search stops at once, the read index moves behind the packet, and parsing gives
the message back. By induction on the list of messages `decode` therefore
empties a buffer that holds their packets, whatever compaction happens between
the passes.
-/

namespace Rocket

open Foundation

namespace TinyPBCoder

open TinyPBProtocol

section Load

variable {temp : Bytes} {k : ℤ}

theorem value_loadInt32 {x : Int32} {rest : Bytes} (h : Cursor temp k (wordBytes x ++ rest)) :
    (loadInt32 temp k).value = some x := by
  have hread : readBlock temp k 4 = some (wordBytes x) := h.readBlock_eq
  rw [loadInt32, Traced.value_access, hread, Option.map_some, getInt32FromNetByte_wordBytes]

theorem value_loadString {bytes rest : Bytes} (h : Cursor temp k (bytes ++ rest)) :
    (loadString temp k bytes.length).value = some bytes :=
  h.readBlock_eq

theorem textAt_of_cursor {text rest : Bytes} (w cap : ℕ) (next : ℤ)
    (h : Cursor temp k (wordBytes (.ofNat text.length) ++ (text ++ rest)))
    (hnul : 0 ∉ text) (hcap : text.length < cap) (hw : k + 4 + text.length < w)
    (hint : w < 2 ^ 31) (hnext : next = k + 4 + text.length) :
    TextAt temp w k cap ⟨.ofNat text.length, text, next⟩ := by
  have hnonneg := h.nonneg
  have htext : Cursor temp (k + 4) (text ++ rest) := h.advance rfl
  have hlen : (Int32.ofNat text.length).toInt = text.length := toInt_ofNat_of_lt (by omega)
  refine ⟨value_loadInt32 h, ?_, ?_, by omega, hnext.trans_le (by omega), ?_, text, ?_, ?_, ?_⟩
  · simp only [hlen]
    omega
  · simp only [hlen]
    omega
  · simp only [hlen, hnext]
  · simp only [hlen, htext.readBlock_eq]
  · left
    simp only [hlen]
    omega
  · exact (takeWhile_eq_self hnul).symm

end Load

/-- What the search finds when the packet of `m` stands at the offset `k`. -/
def foundAt (m : TinyPBProtocol) (k : ℕ) : Found :=
  ⟨k, k + m.packetLength - 1, .ofNat m.packetLength⟩

section Packet

variable {temp rest : Bytes} {m : TinyPBProtocol} {k : ℕ}

theorem firstPacket_foundAt (h : Cursor temp k (m.packet ++ rest)) {r w : ℕ} (hr : r ≤ k)
    (hno : ∀ i, r ≤ i → i < k → temp[i]? ≠ some pbStart)
    (hw : k + m.packetLength ≤ w) (hint : w < 2 ^ 31) :
    FirstPacket temp r w (foundAt m k) := by
  have hge := m.packetLength_ge
  have hstart : readCell temp k = some pbStart := h.readCell_eq
  have hlength : lengthAt temp k = some (.ofNat m.packetLength) := by
    rw [packet, List.append_assoc, List.append_assoc] at h
    exact value_loadInt32 (h.advance (j := (k + 1 : ℕ)) (by simp))
  have hends : readCell temp (k + m.packetLength - 1) = some pbEnd := by
    obtain ⟨body, hbody⟩ := List.getLast?_eq_some_iff.1 m.getLast?_packet
    have hlen := m.length_packet
    rw [hbody, List.length_append, List.length_singleton] at hlen
    rw [hbody, List.append_assoc] at h
    exact (h.advance (j := k + m.packetLength - 1) (by omega)).readCell_eq
  have hpk : (Int32.ofNat m.packetLength).toInt = m.packetLength := toInt_ofNat_of_lt (by omega)
  refine ⟨hr, ?_, fun i hi hlt hmarks => absurd hmarks.1 (hno i hi hlt)⟩
  refine ⟨⟨(readCell_natCast temp k).symm.trans hstart, ?_⟩, hlength, ?_, ?_, hends⟩
  · simp only [foundAt]
    omega
  · simp only [foundAt, lastIndex, hpk]
    exact (wrap_eq_self (by omega) (by omega)).symm
  · simp only [foundAt]
    omega

/-- Parsing the packet of an encodable message gives the message, with its
lengths. -/
theorem value_parse (h : Cursor temp k (m.packet ++ rest)) (hm : m.Encodable)
    (hint : k + m.packetLength < 2 ^ 31) :
    (parse temp (foundAt m k)).value = some (some { m.withLengths with checkSum := 0 }) := by
  have htotal : m.packetLength =
      2 + 24 + m.msgId.length + m.methodName.length + m.errInfo.length + m.pbData.length := rfl
  have hpacket : Cursor temp k ([pbStart] ++ (wordBytes (.ofNat m.packetLength) ++
      (wordBytes (.ofNat m.msgId.length) ++ (m.msgId ++
      (wordBytes (.ofNat m.methodName.length) ++ (m.methodName ++ (wordBytes m.errCode ++
      (wordBytes (.ofNat m.errInfo.length) ++ (m.errInfo ++ (m.pbData ++
      (wordBytes 1 ++ ([pbEnd] ++ rest)))))))))))) := by
    simpa only [packet, List.append_assoc] using h
  have hnonneg : (0 : ℤ) ≤ k := by omega
  -- the fields, in the order of the packet
  have hmsgId := (hpacket.advance (j := k + 1) rfl).advance (j := k + 5) (by simp; omega)
  have hmethodName := (hmsgId.advance (j := k + 9) (by simp; omega)).advance
    (j := k + 9 + m.msgId.length) rfl
  have herrCode := (hmethodName.advance (j := k + 13 + m.msgId.length) (by simp; omega)).advance
    (j := k + 13 + m.msgId.length + m.methodName.length) rfl
  have herrInfo := herrCode.advance
    (j := k + 17 + m.msgId.length + m.methodName.length) (by simp; omega)
  have hpbData := (herrInfo.advance
    (j := k + 21 + m.msgId.length + m.methodName.length) (by simp; omega)).advance
    (j := k + 21 + m.msgId.length + m.methodName.length + m.errInfo.length) rfl
  have hloadMsgId := (textAt_of_cursor (k + m.packetLength) 100 (k + 9 + m.msgId.length)
    hmsgId hm.msgId_nul (Nat.lt_succ_of_le hm.msgId_le) (by omega) hint
    (by omega)).value_loadField (by omega) hint
  have hloadMethodName := (textAt_of_cursor (k + m.packetLength) 512
    (k + 13 + m.msgId.length + m.methodName.length)
    hmethodName hm.methodName_nul (Nat.lt_succ_of_le hm.methodName_le) (by omega) hint
    (by omega)).value_loadField (by omega) hint
  have hloadErrInfo := (textAt_of_cursor (k + m.packetLength) 512
    (k + 21 + m.msgId.length + m.methodName.length + m.errInfo.length)
    herrInfo hm.errInfo_nul (Nat.lt_succ_of_le hm.errInfo_le) (by omega) hint
    (by omega)).value_loadField (by omega) hint
  have hmsgIdLenIndex : wrap ((k : ℤ) + 1 + 4) = k + 5 :=
    (wrap_eq_self (by omega) (by omega)).trans (by omega)
  have herrInfoLenIndex : wrap ((k : ℤ) + 13 + m.msgId.length + m.methodName.length + 4) =
      k + 17 + m.msgId.length + m.methodName.length :=
    (wrap_eq_self (by omega) (by omega)).trans (by omega)
  have hpbDataLen : wrap ((m.packetLength : ℤ) - m.methodName.length - m.msgId.length -
      m.errInfo.length - 2 - 24) = m.pbData.length :=
    (wrap_eq_self (by omega) (by omega)).trans (by omega)
  simp only [parse, foundAt, Traced.value_ite, Traced.value_bind, Traced.value_pure,
    Option.bind_some, hmsgIdLenIndex, hloadMsgId, hloadMethodName, value_loadInt32 herrCode,
    herrInfoLenIndex, hloadErrInfo, toInt_ofNat_of_lt (n := m.packetLength) (by omega),
    toInt_ofNat_of_lt (n := m.msgId.length) (by omega),
    toInt_ofNat_of_lt (n := m.methodName.length) (by omega),
    toInt_ofNat_of_lt (n := m.errInfo.length) (by omega), hpbDataLen, value_loadString hpbData]
  rw [if_neg (by omega), if_neg (by omega), if_neg (by omega), if_neg (by omega)]
  rfl

end Packet

section Buffer

variable {b : TcpBuffer} {stale rest spare : Bytes} {m : TinyPBProtocol}

theorem getElem?_ne_pbStart {garbage rest : Bytes} (hlay : b.Layout stale (garbage ++ rest) spare)
    (hno : pbStart ∉ garbage) {i : ℕ} (hi : b.readIndex ≤ i)
    (hlt : i < b.readIndex + garbage.length) : b.buffer[i]? ≠ some pbStart := by
  have hread := hlay.readIndex_eq
  have hcell : b.buffer[i]? = garbage[i - stale.length]? := by
    rw [hlay.buffer_eq, List.append_assoc, List.append_assoc,
      List.getElem?_append_right (by omega), List.getElem?_append_left (by omega)]
  rw [hcell]
  exact fun hstart => hno (List.mem_of_getElem? hstart)

/-- One pass over a buffer with a packet behind bytes that hold no start mark: the read
index is moved by the length of the packet, from where it was. -/
theorem again_packet_behind {garbage : Bytes} (hno : pbStart ∉ garbage)
    (hlay : b.Layout stale (garbage ++ (m.packet ++ rest)) spare) (hproper : b.Proper)
    (hm : m.Encodable) :
    ∃ b' stale' spare', b.moveReadIndex m.packetLength = some b' ∧
      (∀ out, Loop.Again decodeBody (b, out) (b', out ++ [{ m.withLengths with checkSum := 0 }])) ∧
      b'.Layout stale' ((garbage ++ (m.packet ++ rest)).drop m.packetLength) spare' ∧
      b'.Proper := by
  have hw := hproper.write_lt_length
  have hint := hproper.write_lt_int
  have hlen := hlay.length_eq
  have hwrite := hlay.writeIndex_eq
  have hread := hlay.readIndex_eq
  have hge := m.packetLength_ge
  have hpacket := m.length_packet
  have hlive : Cursor b.buffer b.readIndex (garbage ++ (m.packet ++ (rest ++ spare))) := by
    simpa using hlay.cursor
  have hcur : Cursor b.buffer (b.readIndex + garbage.length : ℕ) (m.packet ++ (rest ++ spare)) :=
    hlive.advance (by push_cast; rfl)
  simp only [List.length_append] at hlen hwrite
  have hfinds : Finds b (foundAt m (b.readIndex + garbage.length)) :=
    firstPacket_foundAt hcur (Nat.le_add_right _ _)
      (fun i hi hlt => getElem?_ne_pbStart hlay hno hi hlt) (by omega) hint
  have hpkLen : (foundAt m (b.readIndex + garbage.length)).pkLen.toInt = m.packetLength :=
    toInt_ofNat_of_lt (by omega)
  rw [← List.take_append_drop m.packetLength (garbage ++ (m.packet ++ rest))] at hlay
  have htake : ((garbage ++ (m.packet ++ rest)).take m.packetLength).length = m.packetLength := by
    simp only [List.length_take, List.length_append]
    omega
  obtain ⟨b', stale', spare', hb', hlay', _⟩ := hlay.exists_moveReadIndex (by omega) (by omega)
  rw [htake] at hb'
  have hparse := value_parse hcur hm (by omega)
  have hagain := again_of_finds hproper hfinds hparse (hpkLen ▸ hb')
  exact ⟨b', stale', spare', hb', hagain, hlay', Proper.of_again hproper (hagain [])⟩

theorem again_packet (hlay : b.Layout stale (m.packet ++ rest) spare) (hproper : b.Proper)
    (hm : m.Encodable) :
    ∃ b' stale' spare', b.moveReadIndex m.packetLength = some b' ∧
      (∀ out, Loop.Again decodeBody (b, out) (b', out ++ [{ m.withLengths with checkSum := 0 }])) ∧
      b'.Layout stale' rest spare' ∧ b'.Proper := by
  obtain ⟨b', stale', spare', hb', hagain, hlay', hproper'⟩ :=
    again_packet_behind (List.not_mem_nil : pbStart ∉ ([] : Bytes)) hlay hproper hm
  rw [List.nil_append, ← m.length_packet, List.drop_left] at hlay'
  exact ⟨b', stale', spare', hb', hagain, hlay', hproper'⟩

theorem findsNone_of_empty (hlay : b.Layout stale [] spare) : FindsNone b := by
  intro i hi hmarks
  have hlt := hmarks.2
  rw [hlay.readIndex_eq] at hi
  rw [hlay.writeIndex_eq, List.length_nil] at hlt
  omega

/-- The buffer behind the packets of `messages`. -/
def drain : List TinyPBProtocol → TcpBuffer → Option TcpBuffer
  | [], b => some b
  | m :: messages, b => (b.moveReadIndex m.withMsgId.packetLength).bind (drain messages)

theorem length_drain {messages : List TinyPBProtocol} {b b' : TcpBuffer}
    (h : drain messages b = some b') : b'.buffer.length = b.buffer.length := by
  induction messages generalizing b with
  | nil =>
      cases h
      rfl
  | cons m messages ih =>
      rcases Option.bind_eq_some_iff.1 h with ⟨b₁, hmove, hrest⟩
      exact (ih hrest).trans (TcpBuffer.length_moveReadIndex hmove)

theorem decode_drain {messages : List TinyPBProtocol}
    (henc : ∀ m ∈ messages, m.withMsgId.Encodable)
    (hlay : b.Layout stale (stream messages ++ rest) spare) (hb : b.Proper) :
    ∃ b' stale' spare', drain messages b = some b' ∧
      (∀ fuel out, decode (messages.length + fuel) out b =
        decode fuel (out ++ messages.map delivered) b') ∧
      b'.Layout stale' rest spare' ∧ b'.Proper := by
  induction messages generalizing b stale spare with
  | nil =>
      refine ⟨b, stale, spare, rfl, fun fuel out => ?_, hlay, hb⟩
      rw [List.length_nil, Nat.zero_add, List.map_nil, List.append_nil]
  | cons m messages ih =>
      rw [stream_cons, List.append_assoc] at hlay
      obtain ⟨b₁, stale₁, spare₁, hmove, hagain, hlay₁, hb₁⟩ :=
        again_packet hlay hb (henc m List.mem_cons_self)
      obtain ⟨b', stale', spare', hdrain, hdecode, hlay', hb'⟩ :=
        ih (fun m' hm' => henc m' (List.mem_cons_of_mem m hm')) hlay₁ hb₁
      refine ⟨b', stale', spare', ?_, fun fuel out => ?_, hlay', hb'⟩
      · rw [drain, hmove, Option.bind_some, hdrain]
      · have hrest := hdecode fuel (out ++ [m.delivered])
        rw [List.append_assoc, List.singleton_append] at hrest
        rw [List.length_cons, Nat.add_right_comm, decode, Loop.run_of_again (hagain out)]
        exact hrest

theorem decode_of_findsNone (hb : b.Proper) (h : FindsNone b) (out : List TinyPBProtocol)
    (fuel : ℕ) : decode (fuel + 1) out b = some (b, out) :=
  Loop.run_of_leave (leave_of_findsNone hb h out) fuel

/-- A buffer that holds the packets of `messages` and nothing else is emptied. -/
theorem decode_stream {messages : List TinyPBProtocol}
    (henc : ∀ m ∈ messages, m.withMsgId.Encodable)
    (hlay : b.Layout stale (stream messages) spare) (hb : b.Proper) (out : List TinyPBProtocol)
    {fuel : ℕ} (hfuel : messages.length < fuel) :
    ∃ b' stale' spare',
      decode fuel out b = some (b', out ++ messages.map delivered) ∧
      b'.Layout stale' [] spare' ∧ b'.Proper := by
  obtain ⟨n, rfl⟩ : ∃ n, fuel = messages.length + (n + 1) := ⟨fuel - messages.length - 1, by omega⟩
  rw [← List.append_nil (stream messages)] at hlay
  obtain ⟨b', stale', spare', _, hdecode, hlay', hb'⟩ := decode_drain henc hlay hb
  refine ⟨b', stale', spare', ?_, hlay', hb'⟩
  rw [hdecode, decode_of_findsNone hb' (findsNone_of_empty hlay')]

end Buffer

/-- The packets that `encodeTinyPB` makes of a list of messages are decoded to
these messages, in this order, and nothing is left. -/
theorem decode_encodeTinyPB {messages : List TinyPBProtocol}
    {sent : List (Bytes × TinyPBProtocol)} (hsent : messages.mapM encodeTinyPB = some sent)
    (henc : ∀ m ∈ messages, m.withMsgId.Encodable) {b : TcpBuffer} (hb : b.Proper)
    (hread : b.readable = sent.flatMap Prod.fst) (outMessages : List TinyPBProtocol)
    {fuel : ℕ} (hfuel : messages.length < fuel) :
    ∃ b', decode fuel outMessages b =
        some (b', outMessages ++ sent.map fun s => { s.2 with checkSum := 0 }) ∧
      b'.readAble = 0 := by
  have hpackets := sent_eq_of_mapM hsent
  obtain ⟨stale, spare, hlay⟩ := hb.exists_layout
  rw [hread, hpackets, List.flatMap_map] at hlay
  obtain ⟨b', stale', spare', hrun, hlay', _⟩ := decode_stream henc hlay hb outMessages hfuel
  refine ⟨b', ?_, by rw [hlay'.readAble_eq]; rfl⟩
  rw [hrun, hpackets, List.map_map]
  rfl

def twoMessages : List TinyPBProtocol :=
  [{ methodName := ascii "Order.makeOrder", pbData := [2, 0, 0, 0, 6, 3] },
    { msgId := ascii "1", errCode := -1, errInfo := ascii "no" }]

theorem twoMessages_encodable : ∀ m ∈ twoMessages, m.withMsgId.Encodable := by decide

/-- The packets of the two messages behind two stale bytes. -/
theorem decode_encodeTinyPB_two :
    ∃ b', decode 3 [] ⟨2, 87, [7, 7] ++ stream twoMessages ++ [0, 0]⟩ =
        some (b', twoMessages.map delivered) ∧ b'.readAble = 0 := by
  have hsent : twoMessages.mapM encodeTinyPB =
      some (twoMessages.map fun m => (m.withMsgId.packet, m.withMsgId.withLengths)) := by decide
  have hproper : TcpBuffer.Proper ⟨2, 87, [7, 7] ++ stream twoMessages ++ [0, 0]⟩ := by decide
  exact decode_encodeTinyPB hsent twoMessages_encodable hproper (by decide) [] (by decide)

end TinyPBCoder

end Rocket
