import Rocket.Foundation.Execution

/-!
# Parts of a machine

A machine may be put together from smaller ones, so that each of its inputs is an input of a
part or none of its business. An execution of the whole is then an execution of the part, in
which nothing happens while the others are busy, and it is weakly fair for the part if the
whole does not hold back for ever what the part is about to do.
-/

namespace Foundation

namespace Machine

variable {σ ι ω σ' ι' ω' : Type*}

/-- `M` contains `M'`, in the states with `I`: `view` is what `M'` has of a state, and `act` is
the input of `M'` that an input of `M` stands for, if it does. -/
structure Contains (M : Machine σ ι ω) (M' : Machine σ' ι' ω') (I : σ → Prop) (view : σ → σ')
    (act : ι → Option ι') : Prop where
  view_eq : ∀ s i s' o, I s → M.step s i = some (s', o) → act i = none → view s' = view s
  exists_step : ∀ s i s' o j, I s → M.step s i = some (s', o) → act i = some j →
    ∃ o', M'.step (view s) j = some (view s', o')

variable {M : Machine σ ι ω} {M' : Machine σ' ι' ω'} {I : σ → Prop} {view : σ → σ'}
  {act : ι → Option ι'}

namespace Execution

def part (e : Execution M) (h : Contains M M' I view act) (hI : ∀ n, I (e.state n)) :
    Execution M' where
  state n := view (e.state n)
  input n := (e.input n).bind act
  next n := by
    have hnext := e.next n
    cases hinput : e.input n with
    | none =>
        rw [hinput] at hnext
        simp only [Option.bind_none, hnext]
    | some i =>
        rw [hinput] at hnext
        obtain ⟨o, hnext⟩ := hnext
        cases hact : act i with
        | none =>
            simp only [Option.bind_some, hact]
            exact h.view_eq _ i _ o (hI n) hnext hact
        | some j =>
            simp only [Option.bind_some, hact]
            exact h.exists_step _ i _ o j (hI n) hnext hact

variable {e : Execution M} {acts : σ → ι → Prop} {acts' : σ' → ι' → Prop}

theorem WeaklyFair.mono {few : σ → ι → Prop} (h : e.WeaklyFair acts)
    (hfew : ∀ s i, few s i → acts s i) : e.WeaklyFair few := by
  intro n i hallowed
  exact h n i fun m hm => ⟨hfew _ i (hallowed m hm).1, (hallowed m hm).2⟩

/-- The execution is fair for the part, if for what the part is about to do and does not do,
there comes a time from which on the whole is about to do it and may do it. -/
theorem WeaklyFair.part {h : Contains M M' I view act} {hI : ∀ n, I (e.state n)}
    (hfair : e.WeaklyFair acts)
    (hwhole : ∀ n j, (∀ m, n ≤ m → acts' (view (e.state m)) j ∧
        (M'.step (view (e.state m)) j).isSome = true ∧ (e.input m).bind act ≠ some j) →
      ∃ k i, n ≤ k ∧ act i = some j ∧
        ∀ m, k ≤ m → acts (e.state m) i ∧ (M.step (e.state m) i).isSome = true) :
    (e.part h hI).WeaklyFair acts' := by
  intro n j hallowed
  by_contra hnone
  have hnot (m : ℕ) (hm : n ≤ m) : (e.input m).bind act ≠ some j := fun hinput =>
    hnone ⟨m, hm, hinput⟩
  obtain ⟨k, i, hk, hact, hstays⟩ := hwhole n j fun m hm =>
    ⟨(hallowed m hm).1, (hallowed m hm).2, hnot m hm⟩
  obtain ⟨m, hm, hinput⟩ := hfair k i hstays
  refine hnot m (hk.trans hm) ?_
  rw [hinput, Option.bind_some, hact]

end Execution

end Machine

end Foundation
