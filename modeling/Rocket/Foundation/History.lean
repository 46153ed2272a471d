import Mathlib.Data.List.Induction
import Rocket.Foundation.Machine

/-!
# Histories

A property of the elements of a list that depends on what stands before them: what has
happened up to an event decides whether the event may happen.

A run whose every step is defined, and right with what has been before it, is one whose
every input meets a condition, if the condition says just this of one step
(`Machine.exists_run_iff_meets`).
-/

namespace Foundation

variable {α : Type*}

/-- `P` holds of each element of the list together with what is before it. -/
def AtEach (P : List α → α → Prop) (l : List α) : Prop :=
  ∀ i, ∀ h : i < l.length, P (l.take i) (l.get ⟨i, h⟩)

instance (P : List α → α → Prop) [∀ before a, Decidable (P before a)] (l : List α) :
    Decidable (AtEach P l) :=
  inferInstanceAs (Decidable (∀ i, ∀ h : i < l.length, P (l.take i) (l.get ⟨i, h⟩)))

variable {P : List α → α → Prop} {l : List α} {a : α}

@[simp] theorem atEach_nil : AtEach P [] := fun i h => absurd h (Nat.not_lt_zero i)

theorem atEach_cons : AtEach P (a :: l) ↔ P [] a ∧ AtEach (fun before => P (a :: before)) l := by
  constructor
  · intro h
    exact ⟨h 0 (Nat.zero_lt_succ _), fun i hi => h (i + 1) (Nat.succ_lt_succ hi)⟩
  · rintro ⟨ha, hl⟩ (_ | i) hi
    · exact ha
    · exact hl i (Nat.lt_of_succ_lt_succ hi)

theorem AtEach.take (h : AtEach P l) (n : ℕ) : AtEach P (l.take n) := by
  intro i hi
  rw [List.length_take] at hi
  have hP := h i (by omega)
  rw [List.take_take, Nat.min_eq_left (by omega)]
  simpa using hP

theorem atEach_append_singleton : AtEach P (l ++ [a]) ↔ AtEach P l ∧ P l a := by
  constructor
  · intro h
    refine ⟨fun i hi => ?_, ?_⟩
    · have hlt : i < (l ++ [a]).length := by
        rw [List.length_append]
        omega
      have hP := h i hlt
      rw [List.take_append_of_le_length (Nat.le_of_lt hi)] at hP
      simpa [List.getElem_append_left hi] using hP
    · have hlt : l.length < (l ++ [a]).length := by simp
      simpa using h l.length hlt
  · rintro ⟨hl, ha⟩ i hi
    by_cases hlt : i < l.length
    · rw [List.take_append_of_le_length (Nat.le_of_lt hlt)]
      simpa [List.getElem_append_left hlt] using hl i hlt
    · have heq : i = l.length := by
        rw [List.length_append, List.length_singleton] at hi
        omega
      subst heq
      simpa using ha

theorem AtEach.congr {Q R : List α → α → Prop} (hR : AtEach R l)
    (h : ∀ before a, R before a → (P before a ↔ Q before a)) : AtEach P l ↔ AtEach Q l :=
  forall₂_congr fun i hi => h _ _ (hR i hi)

theorem AtEach.imp {Q : List α → α → Prop} (hP : AtEach P l)
    (h : ∀ before a, P before a → Q before a) : AtEach Q l :=
  fun i hi => h _ _ (hP i hi)

/-- What each element has to do with the one before it, any two have to do with each other. -/
theorem AtEach.pairwise {R : α → α → Prop} (htrans : ∀ a b c, R a b → R b c → R a c)
    (h : AtEach (fun before a => ∀ last ∈ before.getLast?, R last a) l) : l.Pairwise R := by
  induction l using List.reverseRecOn with
  | nil => exact List.Pairwise.nil
  | append_singleton l a ih =>
      obtain ⟨hl, ha⟩ := atEach_append_singleton.1 h
      have hpairwise := ih hl
      refine List.pairwise_append.2 ⟨hpairwise, List.pairwise_singleton .., ?_⟩
      intro b hb a' ha'
      obtain rfl := List.mem_singleton.1 ha'
      obtain ⟨before, last, rfl⟩ : ∃ before last, l = before ++ [last] :=
        ⟨_, _, (List.dropLast_concat_getLast (List.ne_nil_of_mem hb)).symm⟩
      have hlast : R last a' := ha last List.getLast?_concat
      rcases List.mem_append.1 hb with hb | hb
      · exact htrans b last a'
          ((List.pairwise_append.1 hpairwise).2.2 b hb last (List.mem_singleton_self last)) hlast
      · rwa [List.mem_singleton.1 hb]

theorem atEach_map {β : Type*} {f : β → α} {l : List β} :
    AtEach P (l.map f) ↔ AtEach (fun before b => P (before.map f) (f b)) l := by
  simp [AtEach, List.map_take]

theorem atEach_forall {ι : Type*} {R : ι → List α → α → Prop} :
    AtEach (fun before a => ∀ i, R i before a) l ↔ ∀ i, AtEach (R i) l :=
  ⟨fun h i j hj => h j hj i, fun h j hj i => h i j hj⟩

/-- A run is defined and right at each step iff its inputs meet `ok`, when `ok` is what it
takes for one more step to be defined and right, and `I` is what such steps keep. -/
theorem Machine.exists_run_iff_meets {σ ι ω : Type*} {M : Machine σ ι ω}
    {I : σ → List (ι × ω) → Prop} {N : List (ι × ω) → ι × ω → Prop} {ok : σ → ι → Prop}
    (hok : ∀ t h i, I t h → (ok t i ↔ ∃ t' o, M.step t i = some (t', o) ∧ N h (i, o)))
    (hkeep : ∀ t h i t' o, I t h → ok t i → M.step t i = some (t', o) → I t' (h ++ [(i, o)]))
    {s : σ} {is : List ι} (hs : I s []) :
    (∃ t os, M.run s is = some (t, os) ∧ AtEach N (is.zip os)) ↔ M.Meets ok s is := by
  have hfrom : ∀ is s h, I s h →
      ((∃ t os, M.run s is = some (t, os) ∧ AtEach (fun before => N (h ++ before)) (is.zip os)) ↔
        M.Meets ok s is) := by
    intro is
    induction is with
    | nil => exact fun s h _ => iff_of_true ⟨s, [], rfl, atEach_nil⟩ trivial
    | cons i is ih =>
        intro s h hI
        constructor
        · rintro ⟨t, os, hrun, heach⟩
          obtain ⟨s', o, os', hstep, hrest, rfl⟩ := (Machine.run_cons_eq_some_iff ..).1 hrun
          rw [List.zip_cons_cons, atEach_cons, List.append_nil] at heach
          have hi := (hok s h i hI).2 ⟨s', o, hstep, heach.1⟩
          refine (Machine.meets_cons hstep).2 ⟨hi, (ih s' _ (hkeep s h i s' o hI hi hstep)).1 ?_⟩
          refine ⟨t, os', hrest, ?_⟩
          simpa only [List.append_assoc, List.singleton_append] using heach.2
        · rintro ⟨hi, hrest⟩
          obtain ⟨s', o, hstep, hN⟩ := (hok s h i hI).1 hi
          obtain ⟨t, os, hrun, heach⟩ :=
            (ih s' _ (hkeep s h i s' o hI hi hstep)).2 (hrest (s', o) hstep)
          refine ⟨t, o :: os, Machine.run_cons hstep hrun, ?_⟩
          rw [List.zip_cons_cons, atEach_cons, List.append_nil]
          refine ⟨hN, ?_⟩
          simpa only [List.append_assoc, List.singleton_append] using heach
  exact hfrom is s [] hs

end Foundation
