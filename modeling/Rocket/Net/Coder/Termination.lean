import Rocket.Net.Coder.Field
import Rocket.Net.Coder.Pass

/-!
# When decoding ends

The readable bytes are the measure of the loop. A packet that is found removes
as many of them as its length field says, so the loop consumes its input as
long as that length is positive. A stray end mark in front of a start mark makes
a packet of length zero, and the loop finds it again in every pass.

A pass that reads outside the copy, or copies a text that its array has no room
for, may do anything, also go on for ever. So it is not taken for the end of the
loop, and `Progresses` asks that there is none.
-/

namespace Rocket

open Foundation

namespace TinyPBCoder

/-- `decode` returns; each pass that goes round again consumes readable bytes and appends at
most one message. -/
structure Consumes (s : TcpBuffer × List TinyPBProtocol) : Prop where
  returns : ∃ fuel r, decode fuel s.2 s.1 = some r
  readAble_lt : ∀ t t', Loop.Reaches decodeBody s t → Loop.Again decodeBody t t' →
    t'.1.readAble < t.1.readAble
  length_le : ∀ t t', Loop.Reaches decodeBody s t → Loop.Again decodeBody t t' →
    t'.2.length ≤ t.2.length + 1

/-- As far as the parser looks into the packet `f`, its fields lie in the copy, and its texts
fit their arrays and are terminated there. -/
def FieldsInCopy (temp : Bytes) (f : Found) : Prop :=
  wrap (f.startIndex + 1 + 4) < f.endIndex →
    ∃ msgId, LoadsAt temp (wrap (f.startIndex + 1 + 4)) 100 msgId ∧
    (msgId.next < f.endIndex → ∃ methodName, LoadsAt temp msgId.next 512 methodName ∧
      (methodName.next < f.endIndex → (readBlock temp methodName.next 4).isSome ∧
        (wrap (methodName.next + 4) < f.endIndex →
          ∃ errInfo, LoadsAt temp (wrap (methodName.next + 4)) 512 errInfo ∧
            (readBlock temp errInfo.next (wrap (f.pkLen.toInt - methodName.len.toInt -
              msgId.len.toInt - errInfo.len.toInt - 2 - 24))).isSome)))

/-- One pass over `b` reads nothing outside the copy, and the packet that it finds moves the
read index forward. -/
structure Progresses (b : TcpBuffer) : Prop where
  marks : MarksInCopy b.buffer b.readIndex b.writeIndex
  fields : ∀ f, Finds b f → FieldsInCopy b.buffer f
  pkLen_pos : ∀ f, Finds b f → 0 < f.pkLen.toInt

section Pass

variable {b : TcpBuffer} {f : Found}

theorem isSome_parse_iff {temp : Bytes} :
    (parse temp f).value.isSome ↔ FieldsInCopy temp f := by
  simp only [parse, FieldsInCopy, Traced.isSome_guard_iff, isSome_loadField_bind_iff, ge_iff_le,
    not_le]
  refine imp_congr_right fun _ => exists_congr fun msgId => and_congr_right fun _ => ?_
  refine imp_congr_right fun _ => exists_congr fun methodName => and_congr_right fun _ => ?_
  refine imp_congr_right fun _ => ?_
  rw [loadInt32, Traced.value_bind, Traced.value_access]
  cases readBlock temp methodName.next 4 with
  | none => simp
  | some word =>
      simp only [Option.map_some, Option.bind_some, Option.isSome_some, true_and,
        Traced.isSome_guard_iff, isSome_loadField_bind_iff, not_le]
      refine imp_congr_right fun _ => exists_congr fun errInfo => and_congr_right fun _ => ?_
      rw [Traced.value_bind, Option.isSome_bind, loadString, Traced.value_access]
      simp

theorem defined_iff (hb : b.Proper) {out : List TinyPBProtocol} :
    decodeBody (b, out) ≠ .undefined ↔
      MarksInCopy b.buffer b.readIndex b.writeIndex ∧ ∀ f, Finds b f → FieldsInCopy b.buffer f := by
  rw [decodeBody_ne_undefined_iff hb, isSome_scan_iff hb.write_lt_length.le]
  exact and_congr_right' (forall₂_congr fun f _ => isSome_parse_iff)

/-- At the end of the `int` range the first field is looked for at a negative
offset. -/
theorem not_fieldsInCopy (hb : b.Proper) (hf : Finds b f) (hbig : 2 ^ 31 ≤ f.startIndex + 5) :
    ¬ FieldsInCopy b.buffer f := by
  have hend := (hf.packet.endIndex_eq_add hb.write_lt_int).1
  have hmarks := hf.packet.marks.2
  have hint := hb.write_lt_int
  have hindex : wrap ((f.startIndex : ℤ) + 1 + 4) < 0 := by
    rw [wrap_eq_sub (by omega) (by omega)]
    omega
  intro hfields
  obtain ⟨msgId, hmsgId, -⟩ := hfields (hindex.trans_le hend)
  obtain ⟨word, hword, -⟩ := Option.map_eq_some_iff.1 hmsgId.len_eq
  rw [readBlock, if_neg fun h => absurd h.1 (not_le_of_gt hindex)] at hword
  cases hword

/-- A packet whose length is not positive is skipped by the parser, and the
pass goes round again without consuming anything. -/
theorem again_of_pkLen_nonpos (hb : b.Proper) (hf : Finds b f) (hlen : f.pkLen.toInt ≤ 0)
    (hfields : FieldsInCopy b.buffer f) (out : List TinyPBProtocol) :
    ∃ b', Loop.Again decodeBody (b, out) (b', out) ∧ b.readAble ≤ b'.readAble := by
  have hsmall : f.startIndex + 5 < 2 ^ 31 := by
    by_contra hbig
    exact not_fieldsInCopy hb hf (not_lt.1 hbig) hfields
  have hend := (hf.packet.endIndex_eq_add hb.write_lt_int).2
  have hindex : wrap ((f.startIndex : ℤ) + 1 + 4) ≥ f.endIndex := by
    rw [wrap_eq_self (by omega) (by omega)]
    omega
  have hparse : (parse b.buffer f).value = some none := by
    rw [parse, if_pos hindex, Traced.value_pure]
  obtain ⟨b', hmove, _, hread⟩ := hf.exists_moveReadIndex hb
  refine ⟨b', ?_, ?_⟩
  · simpa using again_of_finds hb hf hparse hmove out
  · rw [hread]
    split_ifs <;> omega

theorem readAble_lt_of_again (hb : b.Proper) (hprog : Progresses b) {out : List TinyPBProtocol}
    {s : TcpBuffer × List TinyPBProtocol} (h : Loop.Again decodeBody (b, out) s) :
    s.1.readAble < b.readAble := by
  obtain ⟨f, message, hf, hparse, hmove, _⟩ := again_cases hb h
  have hpos := hprog.pkLen_pos f hf
  obtain ⟨b', hmove', _, hread⟩ := hf.exists_moveReadIndex hb
  rw [hmove] at hmove'
  cases hmove'
  rw [hread, if_pos (by omega)]
  omega

end Pass

/-- The loop consumes its input and returns exactly when every pass stays in the copy and every
packet that it finds moves the read index forward. -/
theorem consumes_iff_progresses {b : TcpBuffer} (hb : b.Proper)
    (outMessages : List TinyPBProtocol) :
    Consumes (b, outMessages) ↔
      ∀ t, Loop.Reaches decodeBody (b, outMessages) t → Progresses t.1 := by
  have hproper {t : TcpBuffer × List TinyPBProtocol}
      (ht : Loop.Reaches decodeBody (b, outMessages) t) : t.1.Proper :=
    Proper.of_reaches (s := (b, outMessages)) hb ht
  constructor
  · intro hcons t ht
    obtain ⟨fuel, r, hrun⟩ := hcons.returns
    obtain ⟨u, hu, hleave⟩ := Loop.exists_run_eq_some_iff.1 ⟨fuel, hrun⟩
    obtain ⟨hmarks, hfields⟩ :=
      (defined_iff (hproper ht)).1 (Loop.Reaches.ne_undefined hu hleave ht)
    refine ⟨hmarks, hfields, fun f hf => ?_⟩
    by_contra hlen
    obtain ⟨b', hagain, hle⟩ :=
      again_of_pkLen_nonpos (hproper ht) hf (not_lt.1 hlen) (hfields f hf) t.2
    exact absurd (hcons.readAble_lt t _ ht hagain) (not_lt_of_ge hle)
  · intro hprog
    have hlt : ∀ t t', Loop.Reaches decodeBody (b, outMessages) t →
        Loop.Again decodeBody t t' → t'.1.readAble < t.1.readAble :=
      fun t t' ht hagain => readAble_lt_of_again (hproper ht) (hprog t ht) hagain
    refine ⟨?_, hlt, ?_⟩
    · obtain ⟨t, r, ht, hleave⟩ := Loop.exists_leave_of_decreasing
        (μ := fun t => t.1.readAble.toNat)
        (fun t ht => (defined_iff (hproper ht)).2 ⟨(hprog t ht).marks, (hprog t ht).fields⟩) <| by
          intro t t' ht hagain
          have hdec := hlt t t' ht hagain
          have hr := (hproper (ht.tail hagain)).read_le_write
          have hnonneg : 0 ≤ t'.1.readAble := by
            rw [TcpBuffer.readAble]
            omega
          omega
      obtain ⟨fuel, hrun⟩ := Loop.exists_run_eq_some_iff.2 ⟨t, ht, hleave⟩
      exact ⟨fuel, r, hrun⟩
    · intro t t' ht hagain
      obtain ⟨f, message, _, _, _, hout⟩ := again_cases (hproper ht) hagain
      rw [hout, List.length_append]
      cases message <;> simp

theorem progresses_behindPacket : Progresses behindPacket := by
  have hlen := behindPacket_proper.write_lt_length.le
  have hscan := (value_scan_eq_none_iff hlen).2 findsNone_behindPacket
  have hfound (f : Found) : ¬ Finds behindPacket f := fun hf => by
    cases hscan.symm.trans ((value_scan_eq_some_iff hlen f).2 hf)
  exact ⟨(isSome_scan_iff hlen).1 (hscan ▸ rfl), fun f hf => absurd hf (hfound f),
    fun f hf => absurd hf (hfound f)⟩

theorem progresses_onePacket : Progresses onePacket := by
  have hlen := onePacket_proper.write_lt_length.le
  have hscan : (scan onePacket.buffer onePacket.readIndex onePacket.writeIndex).value =
      some (some ⟨0, 29, 30⟩) := by decide +kernel
  have hfound (f : Found) (hf : Finds onePacket f) : f = ⟨0, 29, 30⟩ := by
    cases hscan.symm.trans ((value_scan_eq_some_iff hlen f).2 hf)
    rfl
  refine ⟨(isSome_scan_iff hlen).1 (hscan ▸ rfl), fun f hf => ?_, fun f hf => ?_⟩
  · rw [hfound f hf, ← isSome_parse_iff]
    decide +kernel
  · rw [hfound f hf]
    decide

/-- `decode` takes the packet out and returns. -/
theorem consumes_iff_progresses_onePacket : Consumes (onePacket, []) := by
  refine (consumes_iff_progresses onePacket_proper []).2 fun t ht => ?_
  rcases reaches_onePacket ht with hbuffer | hbuffer
  · exact hbuffer ▸ progresses_onePacket
  · exact hbuffer ▸ progresses_behindPacket

/-- A new buffer after six bytes from a peer: an end mark, and a start mark with
the length zero. -/
def strayEnd : TcpBuffer := ⟨0, 6, [3, 2, 0, 0, 0, 0] ++ List.replicate 122 0⟩

theorem strayEnd_proper : strayEnd.Proper :=
  ⟨by decide, by simp [strayEnd], by decide⟩

/-- The loop never ends on six bytes from a peer. -/
theorem not_consumes_strayEnd :
    strayEnd.Proper ∧ (¬ ∃ t, Loop.Reaches decodeBody (strayEnd, []) t ∧ Loop.Stops decodeBody t) ∧
      ¬ Consumes (strayEnd, []) := by
  have hagain : Loop.Again decodeBody (strayEnd, []) (strayEnd, []) := by
    unfold Loop.Again
    decide +kernel
  have hspin : ¬ ∃ t, Loop.Reaches decodeBody (strayEnd, []) t ∧ Loop.Stops decodeBody t := by
    rintro ⟨t, ht, hstop⟩
    rw [hagain.eq_of_reaches ht] at hstop
    exact hstop _ hagain
  refine ⟨strayEnd_proper, hspin, fun h => ?_⟩
  obtain ⟨fuel, r, hrun⟩ := h.returns
  obtain ⟨t, ht, hleave⟩ := Loop.exists_run_eq_some_iff.1 ⟨fuel, hrun⟩
  exact hspin ⟨t, ht, fun t' hagain => by cases hleave.symm.trans hagain⟩

end TinyPBCoder

end Rocket
