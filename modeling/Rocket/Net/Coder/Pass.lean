import Rocket.Net.Coder.Scan

/-!
# What one pass does

A pass either finds no packet and returns, or it moves the read index by the
length of the first packet and appends at most one message. `again_cases` says
this once for all results about runs of `decode`.
-/

namespace Rocket

open Foundation

namespace TinyPBCoder

open TinyPBProtocol

/-- The last byte of a packet lies in the copy, so its offset did not wrap. -/
theorem PacketAt.endIndex_eq_add {temp : Bytes} {w : ℕ} {f : Found} (h : PacketAt temp w f)
    (hint : w < 2 ^ 31) : 0 ≤ f.endIndex ∧ f.endIndex = f.startIndex + f.pkLen.toInt - 1 := by
  have hnonneg := ((readCell_eq_some_iff temp f.endIndex pbEnd).1 h.ends).1
  have hlt := h.endIndex_lt
  have hmarks := h.marks.2
  have hlo := f.pkLen.le_toInt
  have hhi := f.pkLen.toInt_lt
  refine ⟨hnonneg, ?_⟩
  rw [h.endIndex_eq, lastIndex] at hnonneg hlt ⊢
  by_cases hbig : 2 ^ 31 ≤ f.startIndex + f.pkLen.toInt - 1
  · rw [wrap_eq_sub hbig (by omega)] at hnonneg
    omega
  · by_cases hsmall : f.startIndex + f.pkLen.toInt - 1 < -2 ^ 31
    · rw [wrap_eq_add (by omega) hsmall] at hlt
      omega
    · exact wrap_eq_self (by omega) (by omega)

def Finds (b : TcpBuffer) (f : Found) : Prop :=
  FirstPacket b.buffer b.readIndex b.writeIndex f

def FindsNone (b : TcpBuffer) : Prop := Quiet b.buffer b.readIndex b.writeIndex

instance (b : TcpBuffer) : Decidable (FindsNone b) :=
  inferInstanceAs (Decidable (Quiet _ _ _))

section Pass

variable {b : TcpBuffer} {f : Found}

theorem Finds.move_eq (hf : Finds b f) (hb : b.Proper) :
    wrap (f.endIndex - f.startIndex + 1) = f.pkLen.toInt := by
  have hend := (hf.packet.endIndex_eq_add hb.write_lt_int).2
  have hsize : f.endIndex - f.startIndex + 1 = f.pkLen.toInt := by omega
  rw [hsize]
  exact wrap_eq_self f.pkLen.le_toInt f.pkLen.toInt_lt

theorem Finds.pkLen_le (hf : Finds b f) (hb : b.Proper) : f.pkLen.toInt ≤ b.readAble := by
  have hend := (hf.packet.endIndex_eq_add hb.write_lt_int).2
  have hlt := hf.packet.endIndex_lt
  have hle := hf.le_start
  rw [TcpBuffer.readAble]
  omega

/-- The read index behind the packet that is found. A length that is not
positive does not move it forward. -/
theorem Finds.exists_moveReadIndex (hf : Finds b f) (hb : b.Proper) :
    ∃ b', b.moveReadIndex f.pkLen.toInt = some b' ∧ b'.Proper ∧
      b'.readAble =
        if 0 ≤ b.readIndex + f.pkLen.toInt then b.readAble - f.pkLen.toInt else b.readAble :=
  hb.moveReadIndex f.pkLen.le_toInt (hf.pkLen_le hb)

theorem value_decodePass_of_finds (hb : b.Proper) (hf : Finds b f) :
    (decodePass b).value = (b.moveReadIndex f.pkLen.toInt).bind fun b' =>
      (parse b.buffer f).value.map fun message => some (b', message) := by
  have hscan := (value_scan_eq_some_iff (r := b.readIndex) hb.write_lt_length.le f).2 hf
  rw [← hf.move_eq hb, decodePass, Traced.value_bind, hscan, Option.bind_some]
  simp only [Traced.value_bind, Traced.value_lift, Traced.value_pure, Option.map_eq_bind,
    Function.comp_def]

theorem value_decodePass_of_findsNone (hb : b.Proper) (h : FindsNone b) :
    (decodePass b).value = some none := by
  have hscan := (value_scan_eq_none_iff (r := b.readIndex) hb.write_lt_length.le).2 h
  rw [decodePass, Traced.value_bind, hscan, Option.bind_some, Traced.value_pure]

theorem again_of_finds (hb : b.Proper) (hf : Finds b f) {message : Option TinyPBProtocol}
    (hparse : (parse b.buffer f).value = some message) {b' : TcpBuffer}
    (hmove : b.moveReadIndex f.pkLen.toInt = some b') (out : List TinyPBProtocol) :
    Loop.Again decodeBody (b, out) (b', out ++ message.toList) := by
  simp only [Loop.Again, decodeBody, value_decodePass_of_finds hb hf, hmove, hparse,
    Option.bind_some, Option.map_some]

theorem leave_of_findsNone (hb : b.Proper) (h : FindsNone b) (out : List TinyPBProtocol) :
    decodeBody (b, out) = .leave (b, out) := by
  rw [decodeBody, value_decodePass_of_findsNone hb h]

theorem again_cases (hb : b.Proper) {out : List TinyPBProtocol}
    {s : TcpBuffer × List TinyPBProtocol} (h : Loop.Again decodeBody (b, out) s) :
    ∃ f message, Finds b f ∧ (parse b.buffer f).value = some message ∧
      b.moveReadIndex f.pkLen.toInt = some s.1 ∧ s.2 = out ++ message.toList := by
  have hlen := hb.write_lt_length.le
  cases hscan : (scan b.buffer b.readIndex b.writeIndex).value with
  | none =>
      have hvalue : (decodePass b).value = none := by
        rw [decodePass, Traced.value_bind, hscan, Option.bind_none]
      rw [Loop.Again, decodeBody, hvalue] at h
      cases h
  | some found =>
      cases found with
      | none =>
          rw [Loop.Again, leave_of_findsNone hb ((value_scan_eq_none_iff hlen).1 hscan)] at h
          cases h
      | some f =>
          have hf : Finds b f := (value_scan_eq_some_iff hlen f).1 hscan
          obtain ⟨b', hmove, _, _⟩ := hf.exists_moveReadIndex hb
          cases hparse : (parse b.buffer f).value with
          | none =>
              have hvalue : (decodePass b).value = none := by
                rw [value_decodePass_of_finds hb hf, hmove, Option.bind_some, hparse,
                  Option.map_none]
              rw [Loop.Again, decodeBody, hvalue] at h
              cases h
          | some message =>
              have heq := Loop.again_rightUnique h (again_of_finds hb hf hparse hmove out)
              subst heq
              exact ⟨f, message, hf, hparse, hmove, rfl⟩

theorem Proper.of_again {s s' : TcpBuffer × List TinyPBProtocol} (hs : s.1.Proper)
    (h : Loop.Again decodeBody s s') : s'.1.Proper := by
  obtain ⟨f, message, hf, _, hmove, _⟩ := again_cases hs h
  obtain ⟨b', hb', hproper, _⟩ := hf.exists_moveReadIndex hs
  rw [hmove] at hb'
  cases hb'
  exact hproper

theorem Proper.of_reaches {s s' : TcpBuffer × List TinyPBProtocol} (hs : s.1.Proper)
    (h : Loop.Reaches decodeBody s s') : s'.1.Proper :=
  h.invariant (I := fun t => t.1.Proper) (fun _ _ => Proper.of_again) hs

theorem decodeBody_ne_undefined_iff (hb : b.Proper) {out : List TinyPBProtocol} :
    decodeBody (b, out) ≠ .undefined ↔ (scan b.buffer b.readIndex b.writeIndex).value.isSome ∧
      ∀ f, Finds b f → (parse b.buffer f).value.isSome := by
  have hlen := hb.write_lt_length.le
  have hbody : decodeBody (b, out) ≠ .undefined ↔ (decodePass b).value.isSome := by
    rw [decodeBody]
    cases (decodePass b).value with
    | none => simp
    | some r => cases r <;> simp
  rw [hbody]
  cases hscan : (scan b.buffer b.readIndex b.writeIndex).value with
  | none => simp [decodePass, hscan]
  | some found =>
      cases found with
      | none =>
          have hnone : FindsNone b := (value_scan_eq_none_iff hlen).1 hscan
          rw [value_decodePass_of_findsNone hb hnone]
          refine iff_of_true rfl ⟨rfl, fun f hf => ?_⟩
          cases hscan.symm.trans ((value_scan_eq_some_iff hlen f).2 hf)
      | some f =>
          have hf : Finds b f := (value_scan_eq_some_iff hlen f).1 hscan
          obtain ⟨b', hmove, _, _⟩ := hf.exists_moveReadIndex hb
          rw [value_decodePass_of_finds hb hf, hmove, Option.bind_some, Option.isSome_map]
          refine ⟨fun h => ⟨rfl, fun f' hf' => ?_⟩, fun h => h.2 f hf⟩
          cases hscan.symm.trans ((value_scan_eq_some_iff hlen f').2 hf')
          exact h

theorem eq_of_leave {s r : TcpBuffer × List TinyPBProtocol} (h : decodeBody s = .leave r) :
    r = s := by
  unfold decodeBody at h
  split at h <;> cases h
  rfl

/-- `decode` keeps the indices in order, and the size of the vector. -/
theorem Proper.of_decode {fuel : ℕ} {out out' : List TinyPBProtocol} {b' : TcpBuffer}
    (hb : b.Proper) (h : decode fuel out b = some (b', out')) :
    b'.Proper ∧ b'.buffer.length = b.buffer.length := by
  obtain ⟨t, hreaches, hleave⟩ := Loop.exists_run_eq_some_iff.1 ⟨fuel, h⟩
  cases eq_of_leave hleave
  refine hreaches.invariant
    (I := fun t => t.1.Proper ∧ t.1.buffer.length = b.buffer.length) ?_ ⟨hb, rfl⟩
  rintro s s' ⟨hs, hlen⟩ hagain
  obtain ⟨_, _, _, _, hmove, _⟩ := again_cases hs hagain
  exact ⟨Proper.of_again hs hagain, (TcpBuffer.length_moveReadIndex hmove).trans hlen⟩

end Pass

def onePacket : TcpBuffer :=
  ⟨0, 30, packet { msgId := ascii "1", methodName := ascii "a.b" } ++ List.replicate 98 0⟩

def behindPacket : TcpBuffer := { onePacket with readIndex := 30 }

theorem onePacket_proper : onePacket.Proper := ⟨by decide, by decide +kernel, by decide⟩

theorem behindPacket_proper : behindPacket.Proper := ⟨by decide, by decide +kernel, by decide⟩

theorem findsNone_behindPacket : FindsNone behindPacket := by decide +kernel

theorem reaches_onePacket {t : TcpBuffer × List TinyPBProtocol}
    (h : Loop.Reaches decodeBody (onePacket, []) t) : t.1 = onePacket ∨ t.1 = behindPacket := by
  have hpass : (decodePass onePacket).value.map (Option.map Prod.fst) =
      some (some behindPacket) := by decide +kernel
  obtain ⟨r, hvalue, hr⟩ := Option.map_eq_some_iff.1 hpass
  obtain ⟨⟨b, message⟩, rfl, rfl⟩ := Option.map_eq_some_iff.1 hr
  have hfirst : Loop.Again decodeBody (onePacket, [])
      (behindPacket, [] ++ message.toList) := by
    simp only [Loop.Again, decodeBody, hvalue]
  cases Relation.ReflTransGen.cases_head h with
  | inl heq => exact Or.inl (congrArg Prod.fst heq.symm)
  | inr hstep =>
      obtain ⟨s, hagain, hreaches⟩ := hstep
      cases Loop.again_rightUnique hagain hfirst
      cases Loop.Reaches.eq_of_leave
        (leave_of_findsNone behindPacket_proper findsNone_behindPacket _) hreaches
      exact Or.inr rfl

end TinyPBCoder

end Rocket
