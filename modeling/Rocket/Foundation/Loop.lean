import Mathlib.Data.Nat.Notation
import Mathlib.Logic.Relation
import Mathlib.Order.Lattice

/-!
# Loops by passes

A loop is given by what one pass of its body does: it goes round again with a
new state, leaves the loop with a result, or is undefined. `run` executes at
most the given number of passes; `Reaches` is the relation between the states
at the heads of the passes of one run.

The rules are the usual ones: a run that leaves the loop is a chain of passes
followed by a leaving one (`exists_run_eq_some_iff`), an invariant of one pass
holds at every head (`Reaches.invariant`), and a measure that every pass
decreases bounds the number of passes (`exists_leave_of_decreasing`).
-/

namespace Foundation

/-- What one pass of a loop body does. -/
inductive Pass (σ ρ : Type*) where
  | again (s : σ)
  | leave (r : ρ)
  | undefined
  deriving DecidableEq

namespace Loop

variable {σ ρ : Type*} (body : σ → Pass σ ρ)

/-- Run at most `fuel` passes. `none` when the loop has not been left by then,
or when a pass is undefined. -/
def run : ℕ → σ → Option ρ
  | 0, _ => none
  | fuel + 1, s =>
      match body s with
      | .again s' => run fuel s'
      | .leave r => some r
      | .undefined => none

/-- One pass goes from `s` to `s'` and round again. -/
def Again (s s' : σ) : Prop := body s = .again s'

/-- `s'` is the state at the head of some pass of the run from `s`. -/
def Reaches : σ → σ → Prop := Relation.ReflTransGen (Again body)

/-- The loop does not go round again from `s`. -/
def Stops (s : σ) : Prop := ∀ s', ¬ Again body s s'

variable {body}

theorem run_of_again {s s' : σ} (h : Again body s s') (fuel : ℕ) :
    run body (fuel + 1) s = run body fuel s' := by
  have hb : body s = .again s' := h
  simp only [run, hb]

theorem run_of_leave {s : σ} {r : ρ} (h : body s = .leave r) (fuel : ℕ) :
    run body (fuel + 1) s = some r := by
  simp only [run, h]

theorem run_mono {fuel fuel' : ℕ} (hle : fuel ≤ fuel') {s : σ} {r : ρ}
    (h : run body fuel s = some r) : run body fuel' s = some r := by
  induction fuel generalizing s fuel' with
  | zero => simp [run] at h
  | succ n ih =>
      obtain ⟨m, rfl⟩ : ∃ m, fuel' = m + 1 := ⟨fuel' - 1, by omega⟩
      simp only [run] at h ⊢
      cases hb : body s with
      | again s' =>
          rw [hb] at h
          exact ih (by omega) h
      | leave r' =>
          rw [hb] at h
          exact h
      | undefined =>
          rw [hb] at h
          cases h

namespace Reaches

theorem refl (s : σ) : Reaches body s s := Relation.ReflTransGen.refl

theorem head {s s' t : σ} (h : Again body s s') (ht : Reaches body s' t) :
    Reaches body s t :=
  Relation.ReflTransGen.head h ht

theorem tail {s t t' : σ} (h : Reaches body s t) (ht : Again body t t') :
    Reaches body s t' :=
  Relation.ReflTransGen.tail h ht

theorem invariant {I : σ → Prop} (hpass : ∀ s s', I s → Again body s s' → I s')
    {s t : σ} (hs : I s) (h : Reaches body s t) : I t := by
  induction h with
  | refl => exact hs
  | tail _ hlast ih => exact hpass _ _ ih hlast

theorem eq_of_leave {s t : σ} {r : ρ} (hs : body s = .leave r) (h : Reaches body s t) : t = s := by
  cases Relation.ReflTransGen.cases_head h with
  | inl heq => exact heq.symm
  | inr hstep =>
      obtain ⟨s', hagain, -⟩ := hstep
      cases hs.symm.trans hagain

end Reaches

theorem again_rightUnique : Relator.RightUnique (Again body) := by
  intro s t t' h h'
  have heq : (Pass.again t : Pass σ ρ) = .again t' := h.symm.trans h'
  cases heq
  rfl

theorem Again.eq_of_reaches {s t : σ} (hs : Again body s s) (h : Reaches body s t) : t = s := by
  induction h with
  | refl => rfl
  | tail _ hlast ih =>
      subst ih
      exact again_rightUnique hlast hs

theorem Reaches.ne_undefined {s t u : σ} {r : ρ} (ht : Reaches body s t)
    (hleave : body t = .leave r) (hu : Reaches body s u) : body u ≠ .undefined := by
  intro hundefined
  rcases Relation.ReflTransGen.total_of_right_unique again_rightUnique ht hu with htu | hut
  · cases Reaches.eq_of_leave hleave htu
    cases hleave.symm.trans hundefined
  · cases Relation.ReflTransGen.cases_head hut with
    | inl heq =>
        subst heq
        cases hleave.symm.trans hundefined
    | inr hstep =>
        obtain ⟨u', hagain, -⟩ := hstep
        cases hundefined.symm.trans hagain

/-- A run that has left the loop is a chain of passes that go round again,
followed by one that leaves. -/
theorem exists_run_eq_some_iff {s : σ} {r : ρ} :
    (∃ fuel, run body fuel s = some r) ↔ ∃ t, Reaches body s t ∧ body t = .leave r := by
  constructor
  · rintro ⟨fuel, h⟩
    induction fuel generalizing s with
    | zero => simp [run] at h
    | succ n ih =>
        cases hb : body s with
        | again s' =>
            rw [run_of_again hb] at h
            obtain ⟨t, ht, hleave⟩ := ih h
            exact ⟨t, .head hb ht, hleave⟩
        | leave r' =>
            rw [run_of_leave hb] at h
            cases h
            exact ⟨s, .refl s, hb⟩
        | undefined => simp [run, hb] at h
  · rintro ⟨t, ht, hleave⟩
    induction ht using Relation.ReflTransGen.head_induction_on with
    | refl => exact ⟨1, run_of_leave hleave 0⟩
    | head hfirst _ ih =>
        obtain ⟨fuel, hfuel⟩ := ih
        exact ⟨fuel + 1, (run_of_again hfirst fuel).trans hfuel⟩

/-- A run whose passes are defined and decrease a measure leaves the loop. -/
theorem exists_leave_of_decreasing {μ : σ → ℕ} {s : σ}
    (hdefined : ∀ t, Reaches body s t → body t ≠ .undefined)
    (hdec : ∀ t t', Reaches body s t → Again body t t' → μ t' < μ t) :
    ∃ t r, Reaches body s t ∧ body t = .leave r := by
  induction hm : μ s using Nat.strong_induction_on generalizing s with
  | h m ih =>
      cases hs : body s with
      | leave r => exact ⟨s, r, .refl s, hs⟩
      | undefined => exact absurd hs (hdefined s (.refl s))
      | again s' =>
          have hlt : μ s' < m := hm ▸ hdec s s' (.refl s) hs
          obtain ⟨t, r, ht, hleave⟩ := ih (μ s') hlt (fun t ht => hdefined t (.head hs ht))
            (fun t t' ht => hdec t t' (.head hs ht)) rfl
          exact ⟨t, r, .head hs ht, hleave⟩

end Loop

end Foundation
