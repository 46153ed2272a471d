import Rocket.Net.Coder.Encode
import Rocket.Net.Coder.Pass
import Rocket.Net.Coder.Pieces

/-!
# Which packets are genuine

A packet that `decode` parses to a message is a frame made of pieces: the lengths of
its texts are those of the byte ranges that are copied, and the payload ends four bytes
before the end mark. But the texts of the message end at their first NUL byte, the
message id may be empty, and the four bytes of the check sum are not looked at. So
encoding the message gives the packet again only if these are as an encoder writes them.
-/

namespace Rocket

open Foundation

namespace TinyPBProtocol.Pieces

def message (p : Pieces) : TinyPBProtocol where
  msgId := p.msgId.takeWhile (· ≠ 0)
  pkLen := .ofNat p.length
  msgIdLen := .ofNat p.msgId.length
  methodNameLen := .ofNat p.methodName.length
  methodName := p.methodName.takeWhile (· ≠ 0)
  errCode := p.errCode
  errInfoLen := .ofNat p.errInfo.length
  errInfo := p.errInfo.takeWhile (· ≠ 0)
  pbData := p.pbData
  parseSuccess := true

end TinyPBProtocol.Pieces

namespace TinyPBCoder

open TinyPBProtocol

section Parse

variable {temp : Bytes} {k : ℤ} {rest : Bytes}

theorem cursor_of_loadInt32 (h : Cursor temp k rest) {x : Int32}
    (hload : (loadInt32 temp k).value = some x) :
    ∃ rest', rest = wordBytes x ++ rest' ∧ Cursor temp (k + 4) rest' := by
  rw [loadInt32, Traced.value_access, Option.map_eq_some_iff] at hload
  obtain ⟨word, hword, rfl⟩ := hload
  have hlen : word.length = 4 := by exact_mod_cast length_of_readBlock hword
  rw [wordBytes_getInt32FromNetByte hlen]
  exact h.exists_of_readBlock hword

/-- An index that overflows is negative, and nothing can be read there. -/
theorem wrap_eq_self_of_readBlock {j n : ℤ} {block : Bytes} (hlo : -2 ^ 31 ≤ j)
    (hhi : j < 2 ^ 32) (hread : readBlock temp (wrap j) n = some block) : wrap j = j := by
  by_cases hover : j < 2 ^ 31
  · exact wrap_eq_self hlo hover
  · obtain ⟨⟨hneg, _⟩, _⟩ := (readBlock_eq_some_iff temp _ n block).1 hread
    rw [wrap_eq_sub (by omega) (by omega)] at hneg
    omega

theorem wrap_eq_self_of_loadInt32 {j : ℤ} (hlo : -2 ^ 31 ≤ j) (hhi : j < 2 ^ 32) {x : Int32}
    (hload : (loadInt32 temp (wrap j)).value = some x) : wrap j = j := by
  rw [loadInt32, Traced.value_access, Option.map_eq_some_iff] at hload
  obtain ⟨word, hword, _⟩ := hload
  exact wrap_eq_self_of_readBlock hlo hhi hword

theorem wrap_eq_self_of_loadField {j : ℤ} (hlo : -2 ^ 31 ≤ j) (hhi : j < 2 ^ 32) {cap : ℕ}
    {x : Field} (hload : (loadField temp (wrap j) cap).value = some x) : wrap j = j := by
  rw [loadField, Traced.value_bind, Option.bind_eq_some_iff] at hload
  obtain ⟨len, hlen, _⟩ := hload
  exact wrap_eq_self_of_loadInt32 hlo hhi hlen

/-- The text field `x` is made of the next two pieces at the cursor, and the cursor is at
`next` behind them. -/
structure FieldPieces (temp : Bytes) (k : ℤ) (cap : ℕ) (x : Field) (bytes rest rest' : Bytes)
    (next : ℤ) : Prop where
  rest_eq : rest = wordBytes (.ofNat bytes.length) ++ (bytes ++ rest')
  cursor : Cursor temp next rest'
  next_eq : next = k + 4 + bytes.length
  length_le : bytes.length ≤ cap
  len_eq : x.len = .ofNat bytes.length
  text_eq : x.text = bytes.takeWhile (· ≠ 0)
  wrap_eq : x.next = wrap next

theorem pieces_of_loadField (h : Cursor temp k rest) (hk : k < 2 ^ 31) {cap : ℕ}
    {x : Field} (hload : (loadField temp k cap).value = some x) :
    ∃ bytes rest' next, FieldPieces temp k cap x bytes rest rest' next := by
  have hnonneg := h.nonneg
  simp only [loadField, Traced.value_bind, Option.bind_eq_some_iff, Traced.value_pure,
    Option.some.injEq] at hload
  obtain ⟨len, hlen, array, harray, text, htext, rfl⟩ := hload
  obtain ⟨rest₁, rfl, hcur⟩ := cursor_of_loadInt32 h hlen
  rw [copyArray, Traced.value_access, Option.ite_none_right_eq_some] at harray
  obtain ⟨hle, hmap⟩ := harray
  obtain ⟨bytes, hread, rfl⟩ := Option.map_eq_some_iff.1 hmap
  have hindex : wrap (k + 4) = k + 4 := wrap_eq_self_of_readBlock (by omega) (by omega) hread
  rw [hindex] at hread ⊢
  obtain ⟨rest₂, rfl, hcur'⟩ := hcur.exists_of_readBlock hread
  have hlength := length_of_readBlock hread
  rw [cString, Traced.value_access, Option.ite_none_right_eq_some, Option.some.injEq,
    takeWhile_append_zeros] at htext
  obtain ⟨_, rfl⟩ := htext
  have hword : len = .ofNat bytes.length := eq_ofNat_of_toInt hlength.symm
  exact ⟨bytes, rest₂, k + 4 + len.toInt, by rw [hword], hcur', by rw [hlength], by omega, hword,
    rfl, rfl⟩

theorem pieces_of_guard {α : Type} (h : Cursor temp k rest) (hk : k < 2 ^ 32) {e : ℤ}
    (he : e < 2 ^ 31) {cap : ℕ} {g : Field → Traced Access (Option α)} {a : α}
    (hvalue : (if wrap k ≥ e then pure none else loadField temp (wrap k) cap >>= g).value =
      some (some a)) :
    ∃ x bytes rest' next, FieldPieces temp k cap x bytes rest rest' next ∧ k < e ∧
      (g x).value = some (some a) := by
  have hnonneg := h.nonneg
  rw [Traced.value_guard_eq_some_iff, Traced.value_bind, Option.bind_eq_some_iff] at hvalue
  obtain ⟨hguard, x, hload, hrest⟩ := hvalue
  have hwrap := wrap_eq_self_of_loadField (by omega) hk hload
  rw [hwrap] at hload hguard
  obtain ⟨bytes, rest', next, hpieces⟩ := pieces_of_loadField h (by omega) hload
  exact ⟨x, bytes, rest', next, hpieces, by omega, hrest⟩

theorem piece_of_guard {α : Type} (h : Cursor temp k rest) (hk : k < 2 ^ 32) {e : ℤ}
    {g : Int32 → Traced Access (Option α)} {a : α}
    (hvalue : (if wrap k ≥ e then pure none else loadInt32 temp (wrap k) >>= g).value =
      some (some a)) :
    ∃ x rest', rest = wordBytes x ++ rest' ∧ Cursor temp (k + 4) rest' ∧ wrap k = k ∧ k < e ∧
      (g x).value = some (some a) := by
  have hnonneg := h.nonneg
  rw [Traced.value_guard_eq_some_iff, Traced.value_bind, Option.bind_eq_some_iff] at hvalue
  obtain ⟨hguard, x, hload, hrest⟩ := hvalue
  have hwrap := wrap_eq_self_of_loadInt32 (by omega) hk hload
  rw [hwrap] at hload hguard
  obtain ⟨rest', hsplit, hcur⟩ := cursor_of_loadInt32 h hload
  exact ⟨x, rest', hsplit, hcur, hwrap, by omega, hrest⟩

def frame (temp : Bytes) (f : Found) : Bytes :=
  (temp.drop f.startIndex).take (f.endIndex - f.startIndex + 1).toNat

theorem tail_of_loadString {n e : ℤ} {pbData : Bytes} (h : Cursor temp k rest)
    (hk : k < 2 ^ 32) (hread : (loadString temp (wrap k) n).value = some pbData)
    (he : k + n + 4 = e) (hend : readCell temp e = some pbEnd) :
    ∃ checkSum rest', rest = pbData ++ (checkSum ++ ([pbEnd] ++ rest')) ∧
      checkSum.length = 4 ∧ (pbData.length : ℤ) = n := by
  have hnonneg := h.nonneg
  rw [loadString, Traced.value_access] at hread
  have hwrap := wrap_eq_self_of_readBlock (by omega) hk hread
  rw [hwrap] at hread
  obtain ⟨rest₁, rfl, hcur₁⟩ := h.exists_of_readBlock hread
  obtain ⟨hcell, hget⟩ := (readCell_eq_some_iff temp e pbEnd).1 hend
  have hlt := (List.getElem?_eq_some_iff.1 hget).1
  have hcur₁nonneg := hcur₁.nonneg
  obtain ⟨checkSum, hsum⟩ :=
    Option.isSome_iff_exists.1 ((readBlock_isSome_iff temp (k + n) 4).2 (by omega))
  obtain ⟨rest₂, rfl, hcur₂⟩ := hcur₁.exists_of_readBlock hsum
  obtain ⟨rest₃, rfl, _⟩ := hcur₂.exists_of_readCell (he ▸ hend)
  exact ⟨checkSum, rest₃, rfl, by exact_mod_cast length_of_readBlock hsum,
    length_of_readBlock hread⟩

theorem toInt_eq_of_le {x : Int32} {n cap : ℕ} (hx : x = .ofNat n) (hn : n ≤ cap)
    (hcap : cap < 2 ^ 31 := by norm_num) : x.toInt = n := by
  rw [hx]
  exact toInt_ofNat_of_lt (by omega)

theorem exists_pieces {w : ℕ} {f : Found} {m : TinyPBProtocol} (hpacket : PacketAt temp w f)
    (hint : w < 2 ^ 31) (hparse : (parse temp f).value = some (some m)) :
    ∃ p : Pieces, p.Sized ∧ frame temp f = p.frame ∧ m = p.message := by
  obtain ⟨hendNonneg, hend⟩ := hpacket.endIndex_eq_add hint
  have hlt := hpacket.endIndex_lt
  have hmark := hpacket.marks.2
  have hstart : Cursor temp f.startIndex (temp.drop f.startIndex) := by
    have hle := (List.getElem?_eq_some_iff.1 hpacket.marks.1).1
    exact ⟨by omega, by omega, by simp⟩
  obtain ⟨rest₁, hrest₁, hcur₁⟩ := hstart.exists_of_readCell
    ((readCell_natCast temp f.startIndex).trans hpacket.marks.1)
  have hlength := hpacket.lengthAt_eq
  rw [lengthAt, Nat.cast_succ] at hlength
  obtain ⟨rest₂, rfl, hcur₂⟩ := cursor_of_loadInt32 hcur₁ hlength
  rw [parse] at hparse
  obtain ⟨msgId, id, rest₃, k₃, hid, hk₂, hparse⟩ :=
    pieces_of_guard hcur₂ (by omega) (by omega) hparse
  have hk₃ := hid.next_eq
  have hidLe := hid.length_le
  rw [hid.wrap_eq] at hparse
  obtain ⟨methodName, name, rest₄, k₄, hname, hk₃lt, hparse⟩ :=
    pieces_of_guard hid.cursor (by omega) (by omega) hparse
  have hk₄ := hname.next_eq
  have hnameLe := hname.length_le
  rw [hname.wrap_eq] at hparse
  obtain ⟨errCode, rest₅, hcode, hcur₅, hwrap, hk₄lt, hparse⟩ :=
    piece_of_guard hname.cursor (by omega) hparse
  rw [hwrap] at hparse
  obtain ⟨errInfo, info, rest₆, k₆, hinfo, hk₅lt, hparse⟩ :=
    pieces_of_guard hcur₅ (by omega) (by omega) hparse
  have hk₆ := hinfo.next_eq
  have hinfoLe := hinfo.length_le
  rw [hinfo.wrap_eq, Traced.value_bind, Option.bind_eq_some_iff] at hparse
  obtain ⟨data, hdata, hparse⟩ := hparse
  rw [Traced.value_pure, Option.some.injEq, Option.some.injEq] at hparse
  have hidLen := toInt_eq_of_le hid.len_eq hid.length_le
  have hnameLen := toInt_eq_of_le hname.len_eq hname.length_le
  have hinfoLen := toInt_eq_of_le hinfo.len_eq hinfo.length_le
  have hpkLen := f.pkLen.toInt_lt
  have hdataEq : wrap (f.pkLen.toInt - methodName.len.toInt - msgId.len.toInt -
      errInfo.len.toInt - 2 - 24) = f.pkLen.toInt - name.length - id.length - info.length - 26 := by
    rw [wrap_eq_self (by omega) (by omega)]
    omega
  rw [hdataEq] at hdata
  obtain ⟨sum, rest₇, hrest₆, hsum, hdataLen⟩ :=
    tail_of_loadString hinfo.cursor (by omega) hdata (e := f.endIndex) (by omega) hpacket.ends
  let p : Pieces := ⟨id, name, errCode, info, data, sum⟩
  have hlen : f.pkLen.toInt = p.length := by
    simp only [Pieces.length, p]
    omega
  have hword : f.pkLen = .ofNat p.length := eq_ofNat_of_toInt hlen
  refine ⟨p, ⟨hsum, by omega⟩, ?_, ?_⟩
  · have hdrop : temp.drop f.startIndex = p.frame ++ rest₇ := by
      rw [hrest₁, hword, hid.rest_eq, hname.rest_eq, hcode, hinfo.rest_eq,
        hrest₆]
      simp only [Pieces.frame, List.append_assoc, List.cons_append, List.nil_append]
      rfl
    have htake : (f.endIndex - f.startIndex + 1).toNat = p.frame.length := by
      rw [p.length_frame]
      omega
    rw [frame, hdrop, htake, List.take_left]
  · rw [← hparse, hid.len_eq, hname.len_eq, hinfo.len_eq, hid.text_eq, hname.text_eq,
      hinfo.text_eq, hword]
    rfl

end Parse

/-- The integer at the offset `k` of a frame. -/
def wordAt (frame : Bytes) (k : ℕ) : Int32 := getInt32FromNetByte ((frame.drop k).take 4)

/-- The text whose length stands at the offset `k` of a frame. -/
def textAt (frame : Bytes) (k : ℕ) : Bytes :=
  (frame.drop (k + 4)).take (wordAt frame k).toInt.toNat

def msgIdOf (frame : Bytes) : Bytes := textAt frame 5

def methodNameOf (frame : Bytes) : Bytes := textAt frame (9 + (msgIdOf frame).length)

def errInfoOf (frame : Bytes) : Bytes :=
  textAt frame (17 + (msgIdOf frame).length + (methodNameOf frame).length)

def checkSumOf (frame : Bytes) : Bytes := (frame.drop (frame.length - 5)).take 4

/-- A frame has a message id, no NUL byte in its texts, and the check sum 1. -/
structure Genuine (frame : Bytes) : Prop where
  msgId_ne : msgIdOf frame ≠ []
  msgId_nul : 0 ∉ msgIdOf frame
  methodName_nul : 0 ∉ methodNameOf frame
  errInfo_nul : 0 ∉ errInfoOf frame
  checkSum_eq : checkSumOf frame = wordBytes 1

instance (frame : Bytes) : Decidable (Genuine frame) :=
  decidable_of_iff (msgIdOf frame ≠ [] ∧ 0 ∉ msgIdOf frame ∧ 0 ∉ methodNameOf frame ∧
      0 ∉ errInfoOf frame ∧ checkSumOf frame = wordBytes 1)
    ⟨fun ⟨hne, hid, hname, hinfo, hsum⟩ => ⟨hne, hid, hname, hinfo, hsum⟩,
      fun h => ⟨h.1, h.2, h.3, h.4, h.5⟩⟩

theorem textAt_eq {frame text rest : Bytes} {k : ℕ}
    (h : Cursor frame k (wordBytes (.ofNat text.length) ++ (text ++ rest)))
    (htext : text.length < 2 ^ 31) : textAt frame k = text := by
  have hnext := (h.advance (j := (k + 4 : ℕ)) rfl).drop_eq
  have hword : (frame.drop k).take 4 = wordBytes (.ofNat text.length) := by
    have hdrop := h.drop_eq
    rw [Int.toNat_natCast] at hdrop
    rw [hdrop, List.take_left' (length_wordBytes _)]
  rw [Int.toNat_natCast] at hnext
  rw [textAt, wordAt, hword, getInt32FromNetByte_wordBytes, toInt_ofNat_of_lt htext,
    Int.toNat_natCast, hnext, List.take_left]

section Frame

variable {p : Pieces}

theorem texts_frame (hp : p.Sized) : msgIdOf p.frame = p.msgId ∧
    methodNameOf p.frame = p.methodName ∧ errInfoOf p.frame = p.errInfo := by
  have hlen := hp.length_lt
  unfold Pieces.length at hlen
  have hstart : Cursor p.frame 0 p.frame := ⟨le_rfl, by omega, rfl⟩
  have hfirst := ((hstart.advance (j := 1) rfl).advance (j := 5) rfl)
  have hid : msgIdOf p.frame = p.msgId := textAt_eq (k := 5) hfirst (by omega)
  have hsecond := (hfirst.advance (j := 9) rfl).advance (j := (9 + p.msgId.length : ℕ)) rfl
  have hname : methodNameOf p.frame = p.methodName := by
    rw [methodNameOf, hid]
    exact textAt_eq hsecond (by omega)
  have hthird := ((hsecond.advance (j := (13 + p.msgId.length : ℕ)) (by
      rw [length_wordBytes]; omega)).advance
    (j := (13 + p.msgId.length + p.methodName.length : ℕ)) (by omega)).advance
    (j := (17 + p.msgId.length + p.methodName.length : ℕ)) (by rw [length_wordBytes]; omega)
  refine ⟨hid, hname, ?_⟩
  rw [errInfoOf, hid, hname]
  exact textAt_eq hthird (by omega)

theorem checkSumOf_frame (hp : p.Sized) : checkSumOf p.frame = p.checkSum := by
  have hsplit : ∃ pre, p.frame = pre ++ p.checkSum ++ [pbEnd] := by
    simp only [Pieces.frame, ← List.append_assoc]
    exact ⟨_, rfl⟩
  obtain ⟨pre, hpre⟩ := hsplit
  have hlen : p.frame.length - 5 = pre.length := by
    simp only [hpre, List.length_append, List.length_singleton, hp.checkSum_eq]
    omega
  rw [checkSumOf, hlen, hpre, List.append_assoc, List.drop_left,
    List.take_left' hp.checkSum_eq]

theorem genuine_frame_iff (hp : p.Sized) : Genuine p.frame ↔ p.msgId ≠ [] ∧ 0 ∉ p.msgId ∧
    0 ∉ p.methodName ∧ 0 ∉ p.errInfo ∧ p.checkSum = wordBytes 1 := by
  obtain ⟨hid, hname, hinfo⟩ := texts_frame hp
  rw [← hid, ← hname, ← hinfo, ← checkSumOf_frame hp]
  exact ⟨fun h => ⟨h.1, h.2, h.3, h.4, h.5⟩,
    fun ⟨hne, hnul, hname', hinfo', hsum⟩ => ⟨hne, hnul, hname', hinfo', hsum⟩⟩

theorem takeWhile_eq_self_iff (text : Bytes) : text.takeWhile (· ≠ 0) = text ↔ 0 ∉ text := by
  rw [List.takeWhile_eq_self_iff]
  constructor
  · intro h hzero
    simpa using h 0 hzero
  · intro hnul c hc
    simp only [decide_eq_true_eq]
    exact fun heq => hnul (heq ▸ hc)

/-- The message that a frame is parsed to is made of the pieces of the frame only if
its texts are not cut short and the id is not filled in. -/
theorem pieces_message_iff : p.message.withMsgId.pieces = p ↔ p.msgId ≠ [] ∧ 0 ∉ p.msgId ∧
    0 ∉ p.methodName ∧ 0 ∉ p.errInfo ∧ p.checkSum = wordBytes 1 := by
  have hfilled : p.message.withMsgId.msgId = p.msgId ↔ p.msgId ≠ [] ∧ 0 ∉ p.msgId := by
    by_cases hcut : p.msgId.takeWhile (· ≠ 0) = []
    · have hid : p.message.withMsgId.msgId = ascii "123456789" := by
        rw [withMsgId, if_pos (by exact hcut)]
      rw [hid, ← takeWhile_eq_self_iff, hcut]
      constructor
      · intro heq
        rw [← heq] at hcut
        exact absurd hcut (by decide)
      · rintro ⟨hne, heq⟩
        exact absurd heq.symm hne
    · have hid : p.message.withMsgId.msgId = p.msgId.takeWhile (· ≠ 0) := by
        rw [withMsgId, if_neg (by exact hcut)]
        rfl
      rw [hid, takeWhile_eq_self_iff]
      refine ⟨fun hnul => ⟨?_, hnul⟩, And.right⟩
      rintro heq
      exact hcut (by rw [heq, List.takeWhile_nil])
  rw [Pieces.ext_iff]
  simp only [pieces, methodName_withMsgId, errCode_withMsgId, errInfo_withMsgId,
    pbData_withMsgId, hfilled]
  have hname : p.message.methodName = p.methodName ↔ 0 ∉ p.methodName := takeWhile_eq_self_iff _
  have hinfo : p.message.errInfo = p.errInfo ↔ 0 ∉ p.errInfo := takeWhile_eq_self_iff _
  have hcode : p.message.errCode = p.errCode := rfl
  have hdata : p.message.pbData = p.pbData := rfl
  simp only [hname, hinfo, hcode, hdata, true_and, and_assoc, eq_comm (a := wordBytes 1)]

/-- Encoding the message of a frame gives the frame again if and only if the frame is
genuine. -/
theorem encode_message_iff (hp : p.Sized) :
    (encodeTinyPB p.message).map Prod.fst = some p.frame ↔ Genuine p.frame := by
  rw [genuine_frame_iff hp, ← pieces_message_iff, Option.map_eq_some_iff]
  constructor
  · rintro ⟨s, hs, hframe⟩
    obtain ⟨hlen, rfl⟩ := (encodeTinyPB_eq_some_iff _ s).1 hs
    have hfits : p.message.withMsgId.Fits := hlen
    have heq : p.message.withMsgId.pieces.frame ++ [] = p.frame ++ [] := by
      rw [← packet_eq_frame]
      exact congrArg (· ++ []) hframe
    exact (Pieces.determines_frame _ _ hfits.sized_pieces hp [] [] heq).1
  · intro heq
    have hlen := length_pieces p.message.withMsgId
    have hframe := packet_eq_frame p.message.withMsgId
    rw [heq] at hlen hframe
    exact ⟨_, (encodeTinyPB_eq_some_iff _ _).2 ⟨hlen ▸ hp.length_lt, rfl⟩, hframe⟩

end Frame

/-- A pass of `decode` takes the packet `f` off and delivers the message `m` for it. -/
structure DeliversFor (t : TcpBuffer × List TinyPBProtocol) (f : Found) (m : TinyPBProtocol) :
    Prop where
  takes : (scan t.1.buffer t.1.readIndex t.1.writeIndex).value = some (some f)
  again : ∃ b, Loop.Again decodeBody t (b, t.2 ++ [m])

theorem DeliversFor.of_pass {b b' : TcpBuffer} {out : List TinyPBProtocol} {f : Found}
    {m : TinyPBProtocol} (hscan : (scan b.buffer b.readIndex b.writeIndex).value = some (some f))
    (hpass : (decodePass b).value = some (some (b', some m))) : DeliversFor (b, out) f m := by
  refine ⟨hscan, b', ?_⟩
  rw [Loop.Again, decodeBody, hpass]
  rfl

theorem DeliversFor.parsed {t : TcpBuffer × List TinyPBProtocol} {f : Found} {m : TinyPBProtocol}
    (h : DeliversFor t f m) (hproper : t.1.Proper) :
    Finds t.1 f ∧ (parse t.1.buffer f).value = some (some m) := by
  have hfinds : Finds t.1 f := (value_scan_eq_some_iff hproper.write_lt_length.le f).1 h.takes
  obtain ⟨b, hagain⟩ := h.again
  obtain ⟨f', message, hfinds', hparse, _, hout⟩ := again_cases hproper hagain
  have htakes := (value_scan_eq_some_iff hproper.write_lt_length.le f').2 hfinds'
  rw [h.takes, Option.some.injEq, Option.some.injEq] at htakes
  subst htakes
  have hmessage : message = some m := by
    have htail := List.append_cancel_left hout
    cases message with
    | none => cases htail
    | some m' =>
        cases htail
        rfl
  exact ⟨hfinds, hmessage ▸ hparse⟩

/-- In every run of `decode`, encoding a message that is delivered gives the bytes that
were taken off for it if and only if these are a genuine frame. -/
theorem encodeTinyPB_delivered_iff {b : TcpBuffer} (hb : b.Proper) {out : List TinyPBProtocol}
    {t : TcpBuffer × List TinyPBProtocol} (hreach : Loop.Reaches decodeBody (b, out) t)
    {f : Found} {m : TinyPBProtocol} (h : DeliversFor t f m) :
    (encodeTinyPB m).map Prod.fst = some (frame t.1.buffer f) ↔ Genuine (frame t.1.buffer f) := by
  have hproper : t.1.Proper := Proper.of_reaches hb hreach
  obtain ⟨hfinds, hparse⟩ := h.parsed hproper
  obtain ⟨p, hp, hframe, rfl⟩ := exists_pieces hfinds.packet hproper.write_lt_int hparse
  rw [hframe]
  exact encode_message_iff hp

/-- A frame that an encoder has written. -/
theorem encodeTinyPB_delivered_iff_order :
    let m : TinyPBProtocol := { msgId := ascii "1", methodName := ascii "Order.makeOrder" }
    (encodeTinyPB m.delivered).map Prod.fst = some m.packet := by
  intro m
  let b : TcpBuffer := ⟨0, 42, m.packet ++ [0]⟩
  have hdelivers : DeliversFor (b, []) ⟨0, 41, 42⟩ m.delivered :=
    .of_pass (by decide +kernel) (by decide +kernel : (decodePass b).value =
      some (some (⟨0, 0, List.replicate 43 0⟩, some m.delivered)))
  exact (encodeTinyPB_delivered_iff (b := b) (by decide) (.refl _) hdelivers).2 (by decide)

/-- The same frame with the check sum 0 is accepted, but not given again. -/
theorem not_encodeTinyPB_delivered_checkSum :
    let m : TinyPBProtocol := { msgId := ascii "1", methodName := ascii "Order.makeOrder" }
    let p : Pieces := { m.pieces with checkSum := wordBytes 0 }
    let b : TcpBuffer := ⟨0, 42, p.frame ++ [0]⟩
    b.Proper ∧ DeliversFor (b, []) ⟨0, 41, 42⟩ m.delivered ∧ frame b.buffer ⟨0, 41, 42⟩ = p.frame ∧
      (encodeTinyPB m.delivered).map Prod.fst ≠ some p.frame := by
  intro m p b
  have hpass : (decodePass b).value =
      some (some (⟨0, 0, List.replicate 43 0⟩, some m.delivered)) := by decide +kernel
  exact ⟨by decide, .of_pass (by decide +kernel) hpass, by decide, by decide⟩

end TinyPBCoder

end Rocket
