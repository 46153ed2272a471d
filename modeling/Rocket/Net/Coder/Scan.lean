import Rocket.Net.Coder.Decode

/-!
# What the search finds

The search of a pass in terms of the bytes alone. `Marks temp w i` is a start
mark at `i` with a byte behind it, and `lengthAt temp i` the length field behind
that mark. `PacketAt` says that a packet is complete and ends in an end mark,
`PassedOver` that it is not, and `FirstPacket` and `Quiet` are the two results
of the search.
-/

namespace Rocket

open Foundation

namespace TinyPBCoder

open TinyPBProtocol

/-- A start mark at `i` with at least one more byte before `w`. -/
def Marks (temp : Bytes) (w i : ℕ) : Prop := temp[i]? = some pbStart ∧ i + 1 < w

/-- The length field behind a mark at `i`, if its four bytes lie in the copy. -/
def lengthAt (temp : Bytes) (i : ℕ) : Option Int32 :=
  (readBlock temp (i + 1 : ℕ) 4).map getInt32FromNetByte

/-- The offset of the last byte of a packet that starts at `i`, as an `int`. -/
def lastIndex (i : ℕ) (pkLen : Int32) : ℤ := wrap (i + pkLen.toInt - 1)

/-- A packet is complete before `w` and ends in an end mark. -/
structure PacketAt (temp : Bytes) (w : ℕ) (f : Found) : Prop where
  marks : Marks temp w f.startIndex
  lengthAt_eq : lengthAt temp f.startIndex = some f.pkLen
  endIndex_eq : f.endIndex = lastIndex f.startIndex f.pkLen
  endIndex_lt : f.endIndex < w
  ends : readCell temp f.endIndex = some pbEnd

/-- The packet of a mark at `i` reaches beyond `w`, or does not end in an end
mark. -/
def PassedOver (temp : Bytes) (w i : ℕ) : Prop :=
  ∃ pkLen, lengthAt temp i = some pkLen ∧
    ((w : ℤ) ≤ lastIndex i pkLen ∨
      ∃ e, readCell temp (lastIndex i pkLen) = some e ∧ e ≠ pbEnd)

/-- `f` is the first packet between `r` and `w`; the marks before it are passed
over. -/
structure FirstPacket (temp : Bytes) (r w : ℕ) (f : Found) : Prop where
  le_start : r ≤ f.startIndex
  packet : PacketAt temp w f
  before : ∀ i, r ≤ i → i < f.startIndex → Marks temp w i → PassedOver temp w i

/-- All marks between `r` and `w` are passed over. -/
def Quiet (temp : Bytes) (r w : ℕ) : Prop :=
  ∀ i, r ≤ i → Marks temp w i → PassedOver temp w i

/-- Up to the first packet between `r` and `w`, the length fields behind the marks lie in the
copy, and so do the last bytes they point at before `w`. -/
def MarksInCopy (temp : Bytes) (r w : ℕ) : Prop :=
  ∀ i, r ≤ i → Marks temp w i →
    (∀ k, r ≤ k → k < i → Marks temp w k → PassedOver temp w k) →
    ∃ pkLen, lengthAt temp i = some pkLen ∧
      ((w : ℤ) ≤ lastIndex i pkLen ∨ (readCell temp (lastIndex i pkLen)).isSome)

instance (temp : Bytes) (w i : ℕ) : Decidable (Marks temp w i) :=
  inferInstanceAs (Decidable (_ ∧ _))

instance (temp : Bytes) (w i : ℕ) : Decidable (PassedOver temp w i) :=
  decidable_of_iff (∃ pkLen ∈ lengthAt temp i, (w : ℤ) ≤ lastIndex i pkLen ∨
    ∃ e ∈ readCell temp (lastIndex i pkLen), e ≠ pbEnd) Iff.rfl

/-- The marks lie before `w`, so there are finitely many positions to look at. -/
instance (temp : Bytes) (r w : ℕ) : Decidable (Quiet temp r w) :=
  decidable_of_iff (∀ i ∈ List.range w, r ≤ i → Marks temp w i → PassedOver temp w i) <| by
    constructor
    · intro h i hi hmarks
      exact h i (List.mem_range.2 (Nat.lt_of_succ_lt hmarks.2)) hi hmarks
    · intro h i _
      exact h i

section Probe

variable {temp : Bytes} {w i : ℕ}

theorem probe_of_marks (h : Marks temp w i) :
    probe temp w i = loadByte temp i >>= fun _ => probeMark temp w i := by
  have hcell : readCell temp i = some pbStart := by rw [readCell_natCast, h.1]
  simp [probe, loadByte, Bind.bind, Traced.bind, Traced.access, hcell, h.2]

theorem probe_of_not_marks (hi : i < temp.length) (h : ¬ Marks temp w i) :
    probe temp w i = loadByte temp i >>= fun _ => pure none := by
  have hcell : readCell temp i = some temp[i] := by simp [hi]
  have hcond : ¬ (temp[i] = pbStart ∧ i + 1 < w) := by
    simpa [Marks, List.getElem?_eq_getElem hi] using h
  simp [probe, loadByte, Bind.bind, Traced.bind, Traced.access, hcell, hcond]

theorem value_probeMark :
    (probeMark temp w i).value = (lengthAt temp i).bind fun pkLen =>
      if lastIndex i pkLen ≥ w then some none
      else (readCell temp (lastIndex i pkLen)).map fun e =>
        if e = pbEnd then some ⟨i, lastIndex i pkLen, pkLen⟩ else none := by
  simp only [probeMark, Traced.value_bind, loadInt32, Traced.value_access, lengthAt, lastIndex,
    Traced.value_ite, loadByte, Traced.value_pure, Option.map_eq_bind, Function.comp_def]

theorem value_probe_of_marks (h : Marks temp w i) :
    (probe temp w i).value = (probeMark temp w i).value := by
  rw [probe_of_marks h, Traced.value_bind, loadByte, Traced.value_access, readCell_natCast, h.1,
    Option.bind_some]

theorem value_probe_of_not_marks (hi : i < temp.length) (h : ¬ Marks temp w i) :
    (probe temp w i).value = some none := by
  rw [probe_of_not_marks hi h, Traced.value_bind, loadByte, Traced.value_access,
    readCell_natCast, List.getElem?_eq_getElem hi, Option.bind_some, Traced.value_pure]

theorem value_probe_eq_some_iff (hi : i < temp.length) (f : Found) :
    (probe temp w i).value = some (some f) ↔ f.startIndex = i ∧ PacketAt temp w f := by
  by_cases hmarks : Marks temp w i
  · rw [value_probe_of_marks hmarks, value_probeMark, Option.bind_eq_some_iff]
    constructor
    · rintro ⟨pkLen, hlen, hval⟩
      split_ifs at hval with hge
      · cases hval
      · rcases Option.map_eq_some_iff.1 hval with ⟨e, he, hf⟩
        split_ifs at hf with hend
        cases hf
        exact ⟨rfl, hmarks, hlen, rfl, lt_of_not_ge hge, hend ▸ he⟩
    · rintro ⟨rfl, hpacket⟩
      refine ⟨f.pkLen, hpacket.lengthAt_eq, ?_⟩
      rw [← hpacket.endIndex_eq, if_neg (not_le_of_gt hpacket.endIndex_lt), hpacket.ends,
        Option.map_some, if_pos rfl]
  · rw [value_probe_of_not_marks hi hmarks]
    constructor
    · intro h
      cases h
    · rintro ⟨rfl, hpacket⟩
      exact absurd hpacket.marks hmarks

/-- A probe fails where there is no mark, and at the marks that are passed
over. -/
theorem value_probe_eq_none_iff (hi : i < temp.length) :
    (probe temp w i).value = some none ↔ (Marks temp w i → PassedOver temp w i) := by
  by_cases hmarks : Marks temp w i
  · rw [value_probe_of_marks hmarks, value_probeMark, Option.bind_eq_some_iff]
    simp only [hmarks, true_implies, PassedOver]
    refine exists_congr fun pkLen => and_congr_right fun _ => ?_
    split_ifs with hge
    · simp [hge.le]
    · simp [not_le_of_gt (lt_of_not_ge hge)]
  · simp [value_probe_of_not_marks hi hmarks, hmarks]

theorem isSome_probe_iff (hi : i < temp.length) :
    (probe temp w i).value.isSome ↔ (Marks temp w i → ∃ pkLen, lengthAt temp i = some pkLen ∧
      ((w : ℤ) ≤ lastIndex i pkLen ∨ (readCell temp (lastIndex i pkLen)).isSome)) := by
  by_cases hmarks : Marks temp w i
  · rw [value_probe_of_marks hmarks, value_probeMark, Option.isSome_bind, Option.any_eq_true]
    simp only [hmarks, true_implies]
    refine exists_congr fun pkLen => and_congr_right fun _ => ?_
    split_ifs with hge
    · simp [hge.le]
    · simp [not_le_of_gt (lt_of_not_ge hge)]
  · simp [value_probe_of_not_marks hi hmarks, hmarks]

theorem onLog_probeMark_iff {r : ℕ} (hr : r ≤ i) :
    Traced.OnLog (Access.InBounds r w) (probeMark temp w i) ↔
      i + 5 ≤ w ∧ ∀ pkLen, lengthAt temp i = some pkLen → (r : ℤ) ≤ lastIndex i pkLen := by
  have hload : (Access.load (i + 1 : ℕ) 4).InBounds r w ↔ i + 5 ≤ w := by
    simp only [Access.InBounds]
    omega
  simp only [probeMark, loadInt32, Traced.onLog_bind, Traced.onLog_access, Traced.value_access,
    hload]
  refine and_congr_right fun _ => forall_congr' fun pkLen => imp_congr_right fun _ => ?_
  change _ ↔ (r : ℤ) ≤ wrap (i + pkLen.toInt - 1)
  split_ifs with hge
  · simp only [Traced.onLog_pure, true_iff]
    omega
  · simp only [Traced.onLog_bind, loadByte, Traced.onLog_access, Traced.onLog_pure,
      Access.InBounds, implies_true, and_true]
    omega

/-- The accesses of a probe are in bounds when the whole length field behind a
mark is, and the last byte it points at does not come before the first byte. -/
theorem onLog_probe_iff {r : ℕ} (hr : r ≤ i) (hw : i < w) (hlen : w ≤ temp.length) :
    Traced.OnLog (Access.InBounds r w) (probe temp w i) ↔
      (Marks temp w i →
        i + 5 ≤ w ∧ ∀ pkLen, lengthAt temp i = some pkLen → (r : ℤ) ≤ lastIndex i pkLen) := by
  have hload : (Access.load i 1).InBounds r w := by
    simp only [Access.InBounds]
    omega
  by_cases hmarks : Marks temp w i
  · have hcell : readCell temp i = some pbStart := by rw [readCell_natCast, hmarks.1]
    rw [probe_of_marks hmarks, Traced.onLog_bind, ← onLog_probeMark_iff hr]
    simp [loadByte, hload, hcell, hmarks]
  · rw [probe_of_not_marks (hw.trans_le hlen) hmarks, Traced.onLog_bind]
    simp [loadByte, hload, hmarks]

end Probe

section Scan

variable {temp : Bytes} {r w : ℕ}

theorem value_scan_eq_some_iff (hlen : w ≤ temp.length) (f : Found) :
    (scan temp r w).value = some (some f) ↔ FirstPacket temp r w f := by
  rw [scan, Traced.value_search_eq_some_iff]
  constructor
  · rintro ⟨k, hk, hfirst⟩
    have hle := hfirst.le
    obtain ⟨rfl, hpacket⟩ := (value_probe_eq_some_iff (by omega) f).1 hfirst.found
    refine ⟨hle, hpacket, fun i hi hlt => ?_⟩
    exact (value_probe_eq_none_iff (by omega)).1 (hfirst.before i hi hlt)
  · intro hfirst
    have hlt : f.startIndex < w := by
      have hmarks := hfirst.packet.marks.2
      omega
    have hle := hfirst.le_start
    refine ⟨f.startIndex, by omega, hle, ?_, fun i hi hi' => ?_⟩
    · exact (value_probe_eq_some_iff (by omega) f).2 ⟨rfl, hfirst.packet⟩
    · exact (value_probe_eq_none_iff (by omega)).2 (hfirst.before i hi hi')

theorem value_scan_eq_none_iff (hlen : w ≤ temp.length) :
    (scan temp r w).value = some none ↔ Quiet temp r w := by
  rw [scan, Traced.value_search_eq_none_iff]
  constructor
  · intro h i hi hmarks
    have hlt := hmarks.2
    exact (value_probe_eq_none_iff (by omega)).1 (h i hi (by omega)) hmarks
  · intro h i hi hlt
    exact (value_probe_eq_none_iff (by omega)).2 (h i hi)

theorem isSome_scan_iff (hlen : w ≤ temp.length) :
    (scan temp r w).value.isSome ↔ MarksInCopy temp r w := by
  rw [scan, Traced.isSome_search_iff]
  constructor
  · intro h i hi hmarks hbefore
    have hlt := hmarks.2
    refine (isSome_probe_iff (by omega)).1 (h i hi (by omega) fun k hk hki => ?_) hmarks
    exact (value_probe_eq_none_iff (by omega)).2 (hbefore k hk hki)
  · intro h i hi hlt hbefore
    refine (isSome_probe_iff (by omega)).2 fun hmarks => h i hi hmarks fun k hk hki => ?_
    exact (value_probe_eq_none_iff (by omega)).1 (hbefore k hk hki)

/-- The accesses of the search are in bounds when they are at all marks up to
the first packet. -/
theorem onLog_scan_iff (hlen : w ≤ temp.length) :
    Traced.OnLog (Access.InBounds r w) (scan temp r w) ↔
      ∀ i, r ≤ i → Marks temp w i →
        (∀ k, r ≤ k → k < i → Marks temp w k → PassedOver temp w k) →
        i + 5 ≤ w ∧ ∀ pkLen, lengthAt temp i = some pkLen → (r : ℤ) ≤ lastIndex i pkLen := by
  rw [scan, Traced.onLog_search_iff]
  constructor
  · intro h i hi hmarks hbefore
    have hlt := hmarks.2
    refine (onLog_probe_iff hi (by omega) hlen).1 (h i hi (by omega) fun k hk hki => ?_) hmarks
    exact (value_probe_eq_none_iff (by omega)).2 (hbefore k hk hki)
  · intro h i hi hlt hbefore
    refine (onLog_probe_iff hi (by omega) hlen).2 fun hmarks => h i hi hmarks fun k hk hki => ?_
    exact (value_probe_eq_none_iff (by omega)).1 (hbefore k hk hki)

end Scan

end TinyPBCoder

end Rocket
