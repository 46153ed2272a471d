import Mathlib.Data.List.Infix
import Mathlib.Data.Option.Basic

/-!
# Machines and refinement

A machine answers inputs with outputs and changes its state; an input it does
not allow has no step. `run` feeds a list of inputs and collects the outputs.

`Refines A C R` says that `C` simulates `A` along the relation `R`: whatever
`A` allows from a related state, `C` allows too, with the same output and to
related states again. `Refines.run` carries this from one input to all runs.

`Meets M ok s is` says that every input of the run from `s` meets `ok` in the
state that it is fed in. An invariant that only such inputs keep holds along
such runs (`Meets.run_invariant`).

`Along M P s is` says that `P` holds in every state of the run from `s`, together
with the inputs and outputs up to it. When the next state has `P` exactly if the
input meets `ok`, the two say the same (`along_iff_meets`).
-/

namespace Foundation

/-- A deterministic machine with inputs `ι` and outputs `ω`. -/
structure Machine (σ ι ω : Type*) where
  step : σ → ι → Option (σ × ω)

namespace Machine

variable {σ τ ι ω : Type*}

def run (M : Machine σ ι ω) : σ → List ι → Option (σ × List ω)
  | s, [] => some (s, [])
  | s, i :: is =>
      (M.step s i).bind fun (s', o) =>
        (M.run s' is).map fun (t, os) => (t, o :: os)

@[simp] theorem run_nil (M : Machine σ ι ω) (s : σ) : M.run s [] = some (s, []) := rfl

theorem run_cons_eq_some_iff (M : Machine σ ι ω) (s : σ) (i : ι) (is : List ι)
    (t : σ) (os : List ω) :
    M.run s (i :: is) = some (t, os) ↔
      ∃ s' o os', M.step s i = some (s', o) ∧ M.run s' is = some (t, os') ∧ os = o :: os' := by
  constructor
  · intro h
    simp only [run, Option.bind_eq_some_iff, Option.map_eq_some_iff, Prod.exists,
      Prod.mk.injEq] at h
    obtain ⟨s', o, hstep, t', os', hrun, rfl, rfl⟩ := h
    exact ⟨s', o, os', hstep, hrun, rfl⟩
  · rintro ⟨s', o, os', hstep, hrun, rfl⟩
    simp [run, hstep, hrun]

theorem run_cons {M : Machine σ ι ω} {s s' t : σ} {i : ι} {is : List ι} {o : ω} {os : List ω}
    (hstep : M.step s i = some (s', o)) (hrun : M.run s' is = some (t, os)) :
    M.run s (i :: is) = some (t, o :: os) :=
  (run_cons_eq_some_iff M s i is t _).2 ⟨s', o, os, hstep, hrun, rfl⟩

theorem run_append_eq_some_iff (M : Machine σ ι ω) (s : σ) (is js : List ι)
    (t : σ) (os : List ω) :
    M.run s (is ++ js) = some (t, os) ↔
      ∃ u os₁ os₂, M.run s is = some (u, os₁) ∧ M.run u js = some (t, os₂) ∧
        os = os₁ ++ os₂ := by
  induction is generalizing s os with
  | nil => simp
  | cons i is ih =>
      rw [List.cons_append, run_cons_eq_some_iff]
      constructor
      · rintro ⟨s', o, os', hstep, hrun, rfl⟩
        obtain ⟨u, os₁, os₂, hu, ht, rfl⟩ := (ih s' os').1 hrun
        exact ⟨u, o :: os₁, os₂, run_cons hstep hu, ht, rfl⟩
      · rintro ⟨u, os₁, os₂, hu, ht, rfl⟩
        obtain ⟨s', o, os', hstep, hrun, rfl⟩ := (run_cons_eq_some_iff M s i is u os₁).1 hu
        exact ⟨s', o, os' ++ os₂, hstep, (ih s' _).2 ⟨u, os', os₂, hrun, ht, rfl⟩, rfl⟩

theorem length_run {M : Machine σ ι ω} {s t : σ} {is : List ι} {os : List ω}
    (hrun : M.run s is = some (t, os)) : os.length = is.length := by
  induction is generalizing s os with
  | nil =>
      cases hrun
      rfl
  | cons i is ih =>
      obtain ⟨s', o, os', _, hrest, rfl⟩ := (run_cons_eq_some_iff M s i is t os).1 hrun
      rw [List.length_cons, List.length_cons, ih hrest]

theorem exists_of_zip_eq {M : Machine σ ι ω} {s t : σ} {is : List ι} {os : List ω}
    (hrun : M.run s is = some (t, os)) {pre post : List (ι × ω)} {i : ι} {o : ω}
    (h : is.zip os = pre ++ (i, o) :: post) :
    is = pre.map Prod.fst ++ i :: post.map Prod.fst ∧
      ∃ u v, M.run s (pre.map Prod.fst) = some (u, pre.map Prod.snd) ∧
        M.step u i = some (v, o) ∧
        M.run v (post.map Prod.fst) = some (t, post.map Prod.snd) := by
  have hlen := length_run hrun
  have hfst : is = pre.map Prod.fst ++ i :: post.map Prod.fst := by
    rw [← List.map_fst_zip hlen.ge, h, List.map_append, List.map_cons]
  have hsnd : os = pre.map Prod.snd ++ o :: post.map Prod.snd := by
    rw [← List.map_snd_zip hlen.le, h, List.map_append, List.map_cons]
  refine ⟨hfst, ?_⟩
  rw [hfst] at hrun
  obtain ⟨u, os₁, os₂, hu, hrest, hos⟩ := (run_append_eq_some_iff M s _ _ t os).1 hrun
  obtain ⟨v, o', os₃, hstep, hv, rfl⟩ := (run_cons_eq_some_iff M u i _ t os₂).1 hrest
  have hlen₁ : os₁.length = (pre.map Prod.snd).length := by
    rw [length_run hu, List.length_map, List.length_map]
  obtain ⟨rfl, htail⟩ := List.append_inj (hos.symm.trans hsnd) hlen₁
  obtain ⟨rfl, rfl⟩ := List.cons_eq_cons.1 htail
  exact ⟨u, v, hu, hstep, hv⟩

/-- What every step keeps, every run keeps. -/
theorem run_invariant (M : Machine σ ι ω) {I : σ → Prop}
    (hstep : ∀ s i s' o, I s → M.step s i = some (s', o) → I s') {s t : σ} {is : List ι}
    {os : List ω} (hs : I s) (hrun : M.run s is = some (t, os)) : I t := by
  induction is generalizing s os with
  | nil =>
      cases hrun
      exact hs
  | cons i is ih =>
      obtain ⟨s', o, os', hi, hrest, _⟩ := (run_cons_eq_some_iff M s i is t os).1 hrun
      exact ih (hstep s i s' o hs hi) hrest

section Recorded

variable {M : Machine σ ι ω}

/-- What every step keeps together with the inputs and outputs so far, every run keeps
together with its own, behind those of an earlier run. -/
theorem run_recorded_from {I : σ → List ι → List ω → Prop}
    (hstep : ∀ s is os i s' o, I s is os → M.step s i = some (s', o) →
      I s' (is ++ [i]) (os ++ [o])) {s t : σ} (is₀ : List ι) (os₀ : List ω) {is : List ι}
    {os : List ω} (hs : I s is₀ os₀) (hrun : M.run s is = some (t, os)) :
    I t (is₀ ++ is) (os₀ ++ os) := by
  induction is generalizing s is₀ os₀ os with
  | nil =>
      cases hrun
      rw [List.append_nil, List.append_nil]
      exact hs
  | cons i is ih =>
      obtain ⟨u, o, os', hi, hrest, rfl⟩ := (run_cons_eq_some_iff M s i is t os).1 hrun
      have ht := ih _ _ (hstep s is₀ os₀ i u o hs hi) hrest
      rwa [List.append_assoc, List.singleton_append, List.append_assoc, List.singleton_append]
        at ht

/-- What every step keeps together with the inputs and outputs so far, every run keeps
together with its own. -/
theorem run_recorded {I : σ → List ι → List ω → Prop}
    (hstep : ∀ s is os i s' o, I s is os → M.step s i = some (s', o) →
      I s' (is ++ [i]) (os ++ [o])) {s t : σ} {is : List ι} {os : List ω} (hs : I s [] [])
    (hrun : M.run s is = some (t, os)) : I t is os :=
  run_recorded_from hstep [] [] hs hrun

theorem run_history {I : σ → List ω → Prop}
    (hstep : ∀ s os i s' o, I s os → M.step s i = some (s', o) → I s' (os ++ [o])) {s t : σ}
    {is : List ι} {os : List ω} (hs : I s []) (hrun : M.run s is = some (t, os)) : I t os :=
  run_recorded (I := fun s _ os => I s os) (fun s _ => hstep s) hs hrun

theorem run_inputs {I : σ → List ι → Prop}
    (hstep : ∀ s is i s' o, I s is → M.step s i = some (s', o) → I s' (is ++ [i])) {s t : σ}
    {is : List ι} {os : List ω} (hs : I s []) (hrun : M.run s is = some (t, os)) : I t is :=
  run_recorded (I := fun s is _ => I s is) (fun s is _ => hstep s is) hs hrun

end Recorded

/-- What every step with an allowed input keeps and gives out, every run with allowed
inputs does. -/
theorem run_forall {M : Machine σ ι ω} {I : σ → Prop} {A : ι → Prop} {P : ω → Prop}
    (hstep : ∀ s i s' o, I s → A i → M.step s i = some (s', o) → I s' ∧ P o) {s t : σ}
    {is : List ι} {os : List ω} (hok : ∀ i ∈ is, A i) (hs : I s)
    (hrun : M.run s is = some (t, os)) : I t ∧ ∀ o ∈ os, P o := by
  induction is generalizing s os with
  | nil =>
      cases hrun
      exact ⟨hs, nofun⟩
  | cons i is ih =>
      obtain ⟨s', o, os', hi, hrest, rfl⟩ := (run_cons_eq_some_iff M s i is t os).1 hrun
      obtain ⟨hoki, hokis⟩ := List.forall_mem_cons.1 hok
      obtain ⟨hs', ho⟩ := hstep s i s' o hs hoki hi
      obtain ⟨ht, hos⟩ := ih hokis hs' hrest
      exact ⟨ht, List.forall_mem_cons.2 ⟨ho, hos⟩⟩

/-- Every input meets `ok` in the state that it is fed in. -/
def Meets (M : Machine σ ι ω) (ok : σ → ι → Prop) : σ → List ι → Prop
  | _, [] => True
  | s, i :: is => ok s i ∧ ∀ p ∈ M.step s i, M.Meets ok p.1 is

instance decidableMeets (M : Machine σ ι ω) (ok : σ → ι → Prop) [∀ s i, Decidable (ok s i)] :
    ∀ s is, Decidable (M.Meets ok s is)
  | _, [] => isTrue trivial
  | s, i :: is =>
      have : ∀ p : σ × ω, Decidable (M.Meets ok p.1 is) := fun p => decidableMeets M ok p.1 is
      inferInstanceAs (Decidable (ok s i ∧ ∀ p ∈ M.step s i, M.Meets ok p.1 is))

theorem meets_cons {M : Machine σ ι ω} {ok : σ → ι → Prop} {s s' : σ} {i : ι} {is : List ι}
    {o : ω} (hstep : M.step s i = some (s', o)) :
    M.Meets ok s (i :: is) ↔ ok s i ∧ M.Meets ok s' is := by
  rw [Meets, and_congr_right_iff]
  intro _
  constructor
  · intro h
    exact h (s', o) hstep
  · intro h p hp
    cases hstep.symm.trans hp
    exact h

/-- A list of inputs meets `ok` if its first part does and its second part does in the
state that the first part leads to. -/
theorem meets_append {M : Machine σ ι ω} {ok : σ → ι → Prop} {s u : σ} {is js : List ι}
    {os : List ω} (hrun : M.run s is = some (u, os)) :
    M.Meets ok s (is ++ js) ↔ M.Meets ok s is ∧ M.Meets ok u js := by
  induction is generalizing s os with
  | nil =>
      cases hrun
      exact (and_iff_right trivial).symm
  | cons i is ih =>
      obtain ⟨s', o, os', hi, hrest, _⟩ := (run_cons_eq_some_iff M s i is u os).1 hrun
      rw [List.cons_append, meets_cons hi, meets_cons hi, ih hrest, and_assoc]

theorem meets_and {M : Machine σ ι ω} {ok ok' : σ → ι → Prop} {s : σ} {is : List ι} :
    M.Meets (fun s i => ok s i ∧ ok' s i) s is ↔ M.Meets ok s is ∧ M.Meets ok' s is := by
  induction is generalizing s with
  | nil => exact (and_iff_left trivial).symm
  | cons i is ih =>
      constructor
      · rintro ⟨⟨hok, hok'⟩, hrest⟩
        exact ⟨⟨hok, fun p hp => (ih.1 (hrest p hp)).1⟩, ⟨hok', fun p hp => (ih.1 (hrest p hp)).2⟩⟩
      · rintro ⟨⟨hok, hrest⟩, ⟨hok', hrest'⟩⟩
        exact ⟨⟨hok, hok'⟩, fun p hp => ih.2 ⟨hrest p hp, hrest' p hp⟩⟩

/-- What every step that meets `ok` keeps, every run keeps whose inputs meet it. -/
theorem Meets.run_invariant {M : Machine σ ι ω} {ok : σ → ι → Prop} {I : σ → Prop}
    (hstep : ∀ s i s' o, I s → ok s i → M.step s i = some (s', o) → I s') {s t : σ} {is : List ι}
    {os : List ω} (hmeets : M.Meets ok s is) (hs : I s) (hrun : M.run s is = some (t, os)) :
    I t := by
  induction is generalizing s os with
  | nil =>
      cases hrun
      exact hs
  | cons i is ih =>
      obtain ⟨s', o, os', hi, hrest, _⟩ := (run_cons_eq_some_iff M s i is t os).1 hrun
      obtain ⟨hok, hmeets'⟩ := (meets_cons hi).1 hmeets
      exact ih hmeets' (hstep s i s' o hs hok hi) hrest

theorem Meets.run_history {M : Machine σ ι ω} {ok : σ → ι → Prop} {I : σ → List ω → Prop}
    (hstep : ∀ s os i s' o, I s os → ok s i → M.step s i = some (s', o) → I s' (os ++ [o]))
    {s t : σ} {is : List ι} {os : List ω} (hmeets : M.Meets ok s is) (hs : I s [])
    (hrun : M.run s is = some (t, os)) : I t os := by
  suffices hfrom : ∀ before, I s before → I t (before ++ os) from hfrom [] hs
  clear hs
  induction is generalizing s os with
  | nil =>
      cases hrun
      exact fun before hs => (List.append_nil before).symm ▸ hs
  | cons i is ih =>
      obtain ⟨s', o, os', hi, hrest, rfl⟩ := (run_cons_eq_some_iff M s i is t os).1 hrun
      obtain ⟨hok, hmeets'⟩ := (meets_cons hi).1 hmeets
      intro before hs
      have ht := ih hmeets' hrest (before ++ [o]) (hstep s before i s' o hs hok hi)
      rwa [List.append_assoc] at ht

/-- A condition that follows from `ok` in the states that a run keeps to. -/
theorem Meets.imp {M : Machine σ ι ω} {ok ok' : σ → ι → Prop} {I : σ → Prop}
    (hok : ∀ s i, I s → ok s i → ok' s i)
    (hstep : ∀ s i s' o, I s → ok s i → M.step s i = some (s', o) → I s') {s : σ} {is : List ι}
    (hs : I s) (hmeets : M.Meets ok s is) : M.Meets ok' s is := by
  induction is generalizing s with
  | nil => trivial
  | cons i is ih =>
      obtain ⟨hi, hrest⟩ := hmeets
      exact ⟨hok s i hs hi, fun p hp => ih (hstep s i p.1 p.2 hs hi hp) (hrest p hp)⟩

/-- Two conditions that agree on the steps from the states that a run keeps to are met by
the same runs. -/
theorem meets_congr {M : Machine σ ι ω} {ok ok' : σ → ι → Prop} {I : σ → Prop}
    (hok : ∀ s i s' o, I s → M.step s i = some (s', o) → (ok s i ↔ ok' s i))
    (hstep : ∀ s i s' o, I s → ok s i → M.step s i = some (s', o) → I s') {s t : σ} {is : List ι}
    {os : List ω} (hs : I s) (hrun : M.run s is = some (t, os)) :
    M.Meets ok s is ↔ M.Meets ok' s is := by
  induction is generalizing s os with
  | nil => exact Iff.rfl
  | cons i is ih =>
      obtain ⟨s', o, os', hi, hrest, _⟩ := (run_cons_eq_some_iff M s i is t os).1 hrun
      rw [meets_cons hi, meets_cons hi, ← hok s i s' o hs hi, and_congr_right_iff]
      intro hiok
      exact ih (hstep s i s' o hs hiok hi) hrest

/-- `P` holds after every part of the run that is defined, together with the inputs and
outputs of this part. -/
def Along (M : Machine σ ι ω) (P : σ → List ι → List ω → Prop) (s : σ) (is : List ι) : Prop :=
  ∀ before after t os, is = before ++ after → M.run s before = some (t, os) → P t before os

theorem Along.of_run {M : Machine σ ι ω} {P : σ → List ι → List ω → Prop} {s t : σ}
    {is : List ι} {os : List ω} (h : M.Along P s is) (hrun : M.run s is = some (t, os)) :
    P t is os :=
  h is [] t os (List.append_nil is).symm hrun

theorem Along.exists_of_map {M : Machine σ ι ω} {P : σ → List ι → List ω → Prop} {s : σ}
    {is : List ι} {os : List ω} (h : M.Along P s is)
    (hrun : (M.run s is).map Prod.snd = some os) : ∃ t, P t is os := by
  obtain ⟨⟨t, os'⟩, hrun', heq⟩ := Option.map_eq_some_iff.1 hrun
  cases heq
  exact ⟨t, h.of_run hrun'⟩

/-- `P` holds along a run iff the inputs of the run meet `ok`, when `ok` is what it takes
for `P` to hold after one more step, and `I` is what such steps keep. -/
theorem along_iff_meets {M : Machine σ ι ω} {P I : σ → List ι → List ω → Prop}
    {ok : σ → ι → Prop} (hP : ∀ t is os, I t is os → P t is os)
    (hok : ∀ t is os i, I t is os →
      (ok t i ↔ ∀ t' o, M.step t i = some (t', o) → P t' (is ++ [i]) (os ++ [o])))
    (hkeep : ∀ t is os i t' o, I t is os → ok t i → M.step t i = some (t', o) →
      I t' (is ++ [i]) (os ++ [o])) {s : σ} {is : List ι} (hs : I s [] []) :
    M.Along P s is ↔ M.Meets ok s is := by
  have hfrom : ∀ is s is₀ os₀, I s is₀ os₀ →
      ((∀ before after t os, is = before ++ after → M.run s before = some (t, os) →
        P t (is₀ ++ before) (os₀ ++ os)) ↔ M.Meets ok s is) := by
    intro is
    induction is with
    | nil =>
        intro s is₀ os₀ hI
        refine iff_of_true (fun before after t os hsplit hrun => ?_) trivial
        obtain ⟨rfl, -⟩ := List.nil_eq_append_iff.1 hsplit
        cases hrun
        simpa using hP s is₀ os₀ hI
    | cons i is ih =>
        intro s is₀ os₀ hI
        constructor
        · intro h
          have hi : ok s i := by
            rw [hok s is₀ os₀ i hI]
            intro t' o hstep
            exact h [i] is t' [o] rfl (run_cons hstep rfl)
          refine ⟨hi, fun p hp => (ih p.1 _ _ (hkeep s is₀ os₀ i p.1 p.2 hI hi hp)).1 ?_⟩
          intro before after t os hsplit hrun
          have hlater := h (i :: before) after t (p.2 :: os) (congrArg (i :: ·) hsplit)
            (run_cons hp hrun)
          rwa [List.append_cons, List.append_cons os₀] at hlater
        · rintro ⟨hi, hrest⟩ before after t os hsplit hrun
          cases before with
          | nil =>
              cases hrun
              simpa using hP s is₀ os₀ hI
          | cons j before =>
              obtain ⟨rfl, hsplit'⟩ := List.cons_eq_cons.1 hsplit
              obtain ⟨s', o, os', hstep, hrun', rfl⟩ :=
                (run_cons_eq_some_iff M s i before t os).1 hrun
              rw [List.append_cons, List.append_cons os₀]
              exact (ih s' _ _ (hkeep s is₀ os₀ i s' o hI hi hstep)).2 (hrest (s', o) hstep)
                before after t os' hsplit' hrun'
  exact hfrom is s [] [] hs

/-- `C` simulates `A` along `R`. -/
def Refines (A : Machine σ ι ω) (C : Machine τ ι ω) (R : σ → τ → Prop) : Prop :=
  ∀ a c i a' o, R a c → A.step a i = some (a', o) →
    ∃ c', C.step c i = some (c', o) ∧ R a' c'

/-- A simulation of the steps is a simulation of the runs. -/
theorem Refines.run {A : Machine σ ι ω} {C : Machine τ ι ω} {R : σ → τ → Prop}
    (h : Refines A C R) {a a' : σ} {c : τ} {is : List ι} {os : List ω} (hR : R a c)
    (hrun : A.run a is = some (a', os)) : ∃ c', C.run c is = some (c', os) ∧ R a' c' := by
  induction is generalizing a c os with
  | nil =>
      cases hrun
      exact ⟨c, rfl, hR⟩
  | cons i is ih =>
      obtain ⟨s, o, os', hstep, hrest, rfl⟩ := (run_cons_eq_some_iff A a i is a' os).1 hrun
      obtain ⟨d, hd, hRd⟩ := h a c i s o hR hstep
      obtain ⟨c', hc', hR'⟩ := ih hRd hrest
      exact ⟨c', run_cons hd hc', hR'⟩

end Machine

end Foundation
