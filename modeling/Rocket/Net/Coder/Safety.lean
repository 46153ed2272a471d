import Rocket.Net.Coder.Field
import Rocket.Net.Coder.Pass

/-!
# When decoding stays in its arrays

The offsets of a pass come from the wire. `MarksInside` says that the search
stays between the indices, `FieldsInside` that the parser does; together they
are exactly what the accesses of a pass need.
-/

namespace Rocket

open Foundation

namespace TinyPBCoder

open TinyPBProtocol

/-- At every mark up to the first packet, the whole length field comes before
the write index, and the last byte it points at does not come before the read
index. -/
def MarksInside (temp : Bytes) (r w : ℕ) : Prop :=
  ∀ i, r ≤ i → Marks temp w i →
    (∀ k, r ≤ k → k < i → Marks temp w k → PassedOver temp w k) →
    i + 5 ≤ w ∧ ∀ pkLen, lengthAt temp i = some pkLen → (r : ℤ) ≤ lastIndex i pkLen

/-- As far as the parser looks into the packet `f`, its texts end before the
write index and are terminated in their arrays, its error code comes before the
write index, and its texts leave room for the payload. -/
def FieldsInside (temp : Bytes) (w : ℕ) (f : Found) : Prop :=
  (f.startIndex : ℤ) + 5 < f.endIndex → ∃ msgId, TextAt temp w (f.startIndex + 5) 100 msgId ∧
    (msgId.next < f.endIndex → ∃ methodName, TextAt temp w msgId.next 512 methodName ∧
      (methodName.next < f.endIndex → methodName.next + 4 ≤ w ∧
        (methodName.next + 4 < f.endIndex →
          ∃ errInfo, TextAt temp w (methodName.next + 4) 512 errInfo ∧
            msgId.len.toInt + methodName.len.toInt + errInfo.len.toInt + 26 ≤ f.pkLen.toInt)))

/-- What one pass over `b` needs to stay in its arrays. -/
structure PassInside (b : TcpBuffer) : Prop where
  marks : MarksInside b.buffer b.readIndex b.writeIndex
  fields : ∀ f, Finds b f → FieldsInside b.buffer b.writeIndex f

section Parse

variable {temp : Bytes} {r w : ℕ} {f : Found}

theorem onLog_parse_iff (hr : r ≤ f.startIndex) (hlen : w ≤ temp.length) (hint : w < 2 ^ 31)
    (hstart : f.startIndex + 5 ≤ w) (hend : f.endIndex = f.startIndex + f.pkLen.toInt - 1)
    (hlt : f.endIndex < w) :
    Traced.OnLog (Access.InBounds r w) (parse temp f) ↔ FieldsInside temp w f := by
  have hindex : wrap ((f.startIndex : ℤ) + 1 + 4) = f.startIndex + 5 :=
    (wrap_eq_self (by omega) (by omega)).trans (by omega)
  simp only [parse, hindex, FieldsInside, Traced.onLog_guard, ge_iff_le, not_le]
  refine imp_congr_right fun _ => ?_
  rw [onLog_loadField_bind_iff (by omega) hint hlen]
  refine exists_congr fun msgId => and_congr_right fun hmsgId => ?_
  have hmsgIdNext := hmsgId.next_eq
  have hmsgIdLen := hmsgId.nonneg
  rw [Traced.onLog_guard, not_le]
  refine imp_congr_right fun _ => ?_
  rw [onLog_loadField_bind_iff (by omega) hint hlen]
  refine exists_congr fun methodName => and_congr_right fun hmethodName => ?_
  have hmethodNameNext := hmethodName.next_eq
  have hmethodNameLen := hmethodName.nonneg
  rw [Traced.onLog_guard, not_le]
  refine imp_congr_right fun _ => ?_
  rw [Traced.onLog_bind, onLog_loadInt32_iff (by omega)]
  refine and_congr_right fun hload => ?_
  obtain ⟨word, hword⟩ :=
    Option.isSome_iff_exists.1 ((readBlock_isSome_iff temp methodName.next 4).2 (by omega))
  have herrInfoLenIndex : wrap (methodName.next + 4) = methodName.next + 4 :=
    wrap_eq_self (by omega) (by omega)
  simp only [loadInt32, Traced.value_access, hword, Option.map_some, Option.some.injEq,
    forall_eq', herrInfoLenIndex, Traced.onLog_guard, not_le]
  refine imp_congr_right fun _ => ?_
  rw [onLog_loadField_bind_iff (by omega) hint hlen]
  refine exists_congr fun errInfo => and_congr_right fun herrInfo => ?_
  have herrInfoNext := herrInfo.next_eq
  have herrInfoLen := herrInfo.nonneg
  have hcap₁ := hmsgId.le_cap
  have hcap₂ := hmethodName.le_cap
  have hcap₃ := herrInfo.le_cap
  have hpbDataLen : wrap (f.pkLen.toInt - methodName.len.toInt - msgId.len.toInt -
      errInfo.len.toInt - 2 - 24) = f.pkLen.toInt - methodName.len.toInt - msgId.len.toInt -
      errInfo.len.toInt - 2 - 24 := wrap_eq_self (by omega) (by omega)
  have hbegin := herrInfo.begin_lt
  have hnext := herrInfo.next_le
  simp only [hpbDataLen, Traced.onLog_bind, Traced.onLog_pure, implies_true, and_true,
    loadString, Traced.onLog_access, Access.InBounds]
  omega

end Parse

/-- The accesses of one pass over `b` stay between its indices and inside the
arrays. -/
def PassInBounds (b : TcpBuffer) : Prop :=
  Traced.OnLog (Access.InBounds b.readIndex b.writeIndex) (decodePass b)

/-- One pass stays in its arrays exactly when the marks and the fields it looks
at do. -/
theorem passInBounds_iff {b : TcpBuffer} (hb : b.Proper) : PassInBounds b ↔ PassInside b := by
  have hlen := hb.write_lt_length.le
  have hmarks : Traced.OnLog (Access.InBounds b.readIndex b.writeIndex)
      (scan b.buffer b.readIndex b.writeIndex) ↔
      MarksInside b.buffer b.readIndex b.writeIndex := onLog_scan_iff hlen
  have hparse : ∀ f, MarksInside b.buffer b.readIndex b.writeIndex → Finds b f →
      (Traced.OnLog (Access.InBounds b.readIndex b.writeIndex) (parse b.buffer f) ↔
        FieldsInside b.buffer b.writeIndex f) := by
    intro f hinside hf
    exact onLog_parse_iff hf.le_start hlen hb.write_lt_int
      (hinside f.startIndex hf.le_start hf.packet.marks hf.before).1
      (hf.packet.endIndex_eq_add hb.write_lt_int).2 hf.packet.endIndex_lt
  rw [PassInBounds, decodePass, Traced.onLog_bind, hmarks]
  constructor
  · rintro ⟨hinside, hrest⟩
    refine ⟨hinside, fun f hf => ?_⟩
    have hfound := hrest (some f) ((value_scan_eq_some_iff hlen f).2 hf)
    obtain ⟨b', hmove, _, _⟩ := hf.exists_moveReadIndex hb
    rw [← hf.move_eq hb] at hmove
    simp only [Traced.onLog_bind, Traced.value_lift, hmove, Option.some.injEq, forall_eq',
      Traced.onLog_lift, Traced.onLog_pure, true_and, implies_true, and_true] at hfound
    exact (hparse f hinside hf).1 hfound
  · rintro ⟨hinside, hfields⟩
    refine ⟨hinside, fun found hfound => ?_⟩
    cases found with
    | none => exact Traced.onLog_pure _ _
    | some f =>
        have hf : Finds b f := (value_scan_eq_some_iff hlen f).1 hfound
        simp only [Traced.onLog_bind, Traced.onLog_lift, Traced.onLog_pure, true_and,
          implies_true, and_true]
        exact fun _ _ => (hparse f hinside hf).2 (hfields f hf)

/-- All passes of a run stay in their arrays exactly when the marks and fields
they look at do. -/
theorem decode_inBounds_iff {b : TcpBuffer} (hb : b.Proper) (outMessages : List TinyPBProtocol) :
    (∀ t, Loop.Reaches decodeBody (b, outMessages) t → PassInBounds t.1) ↔
      ∀ t, Loop.Reaches decodeBody (b, outMessages) t → PassInside t.1 :=
  forall_congr' fun _ => imp_congr_right fun ht =>
    passInBounds_iff (Proper.of_reaches (s := (b, outMessages)) hb ht)

instance (lo hi : ℕ) : DecidablePred (Access.InBounds lo hi)
  | .load .. => inferInstanceAs (Decidable (_ ∧ _))
  | .copy .. => inferInstanceAs (Decidable (_ ∧ _))
  | .text _ => inferInstanceAs (Decidable (_ = _))

instance (b : TcpBuffer) : Decidable (PassInBounds b) :=
  inferInstanceAs (Decidable (∀ e ∈ _, _))

/-- The packet is decoded inside its arrays. -/
theorem decode_inBounds_iff_onePacket : onePacket.Proper ∧
    ∀ t, Loop.Reaches decodeBody (onePacket, []) t → PassInBounds t.1 := by
  refine ⟨onePacket_proper, (decode_inBounds_iff onePacket_proper []).2 fun t ht => ?_⟩
  rcases reaches_onePacket ht with hbuffer | hbuffer
  · rw [hbuffer, ← passInBounds_iff onePacket_proper]
    decide +kernel
  · rw [hbuffer, ← passInBounds_iff behindPacket_proper]
    decide +kernel

/-- A new buffer after five bytes from a peer: a start mark and a negative
length. -/
def negativeLength : TcpBuffer := ⟨0, 5, [2, 0xff, 0xff, 0xff, 0] ++ List.replicate 123 0⟩

theorem negativeLength_proper : negativeLength.Proper :=
  ⟨by decide, by simp [negativeLength], by decide⟩

/-- The end mark is looked for 257 bytes before the vector. -/
theorem not_inBounds_negativeLength :
    negativeLength.Proper ∧ Access.load (-257) 1 ∈ (decodePass negativeLength).log ∧
      ¬ ∀ t, Loop.Reaches decodeBody (negativeLength, []) t → PassInBounds t.1 := by
  have hmem : Access.load (-257) 1 ∈ (decodePass negativeLength).log := by decide +kernel
  refine ⟨negativeLength_proper, hmem, fun h => ?_⟩
  have hload := h _ (Loop.Reaches.refl _) _ hmem
  exact absurd hload.1 (by decide)

end TinyPBCoder

end Rocket
