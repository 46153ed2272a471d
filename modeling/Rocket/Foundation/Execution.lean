import Mathlib.Data.Nat.Find
import Mathlib.Order.Monotone.Basic
import Rocket.Foundation.Machine

/-!
# Executions that go on for ever

An execution of a machine has a state for each time. From one time to the next an input is
fed, or nothing happens. `acts` says which inputs somebody is about to feed in a state. The
execution is weakly fair for them if none of them remains allowed from some time on without
being fed.

`CountsDown M ok acts I left` says that no input that meets `ok` makes `left` larger in a
state with `I`, that some input of `acts` makes it smaller unless it is zero, and that this
input can wait: what others do does not take its effect away. Then a weakly fair execution
gets to zero (`CountsDown.eventually`).
-/

namespace Foundation

namespace Machine

variable {σ ι ω : Type*}

/-- What happens at each time. -/
structure Execution (M : Machine σ ι ω) where
  state : ℕ → σ
  input : ℕ → Option ι
  next : ∀ n, match input n with
    | none => state (n + 1) = state n
    | some i => ∃ o, M.step (state n) i = some (state (n + 1), o)

def Helps (M : Machine σ ι ω) (left : σ → ℕ) (s : σ) (i : ι) : Prop :=
  ∃ s' o, M.step s i = some (s', o) ∧ left s' < left s

def recording (M : Machine σ ι ω) : Machine (σ × List ι) ι ω where
  step p i := (M.step p.1 i).map fun q => ((q.1, p.2 ++ [i]), q.2)

theorem recording_step_eq_some_iff {M : Machine σ ι ω} {p p' : σ × List ι} {i : ι} {o : ω} :
    M.recording.step p i = some (p', o) ↔
      M.step p.1 i = some (p'.1, o) ∧ p'.2 = p.2 ++ [i] := by
  constructor
  · intro h
    obtain ⟨q, hstep, heq⟩ := Option.map_eq_some_iff.1 h
    cases heq
    exact ⟨hstep, rfl⟩
  · rintro ⟨hstep, heq⟩
    exact Option.map_eq_some_iff.2 ⟨_, hstep, Prod.ext (Prod.ext rfl heq.symm) rfl⟩

namespace Execution

variable {M : Machine σ ι ω} (e : Execution M)

/-- None of the inputs `acts` is allowed from some time on and never fed. -/
def WeaklyFair (acts : σ → ι → Prop) : Prop :=
  ∀ n i, (∀ m, n ≤ m → acts (e.state m) i ∧ (M.step (e.state m) i).isSome = true) →
    ∃ m, n ≤ m ∧ e.input m = some i

/-- Every input meets `ok` in the state that it is fed in. -/
def Meets (ok : σ → ι → Prop) : Prop := ∀ n i, e.input n = some i → ok (e.state n) i

def inputs : ℕ → List ι
  | 0 => []
  | n + 1 => inputs n ++ (e.input n).toList

def recording : Execution M.recording where
  state n := (e.state n, e.inputs n)
  input := e.input
  next n := by
    have hnext := e.next n
    cases hinput : e.input n with
    | none =>
        rw [hinput] at hnext
        simp only [inputs, hinput, hnext, Option.toList_none, List.append_nil]
    | some i =>
        rw [hinput] at hnext
        obtain ⟨o, hnext⟩ := hnext
        exact ⟨o, by simp only [Machine.recording, hnext, inputs, hinput, Option.toList_some,
          Option.map_some]⟩

def drop (n : ℕ) : Execution M where
  state k := e.state (n + k)
  input k := e.input (n + k)
  next k := e.next (n + k)

variable {e}

theorem WeaklyFair.drop {acts : σ → ι → Prop} (h : e.WeaklyFair acts) (n : ℕ) :
    (e.drop n).WeaklyFair acts := by
  intro k i hallowed
  obtain ⟨m, hm, hinput⟩ := h (n + k) i fun m hm => by
    obtain ⟨j, rfl⟩ := Nat.exists_eq_add_of_le ((Nat.le_add_right n k).trans hm)
    exact hallowed j (Nat.add_le_add_iff_left.1 hm)
  obtain ⟨j, rfl⟩ := Nat.exists_eq_add_of_le ((Nat.le_add_right n k).trans hm)
  exact ⟨j, Nat.add_le_add_iff_left.1 hm, hinput⟩

theorem Meets.recording {ok : σ → ι → Prop} (h : e.Meets ok) :
    e.recording.Meets fun p => ok p.1 := h

theorem Meets.drop {ok : σ → ι → Prop} (h : e.Meets ok) (n : ℕ) : (e.drop n).Meets ok :=
  fun k => h (n + k)

theorem WeaklyFair.recording {acts : σ → ι → Prop} (h : e.WeaklyFair acts) :
    e.recording.WeaklyFair fun p => acts p.1 := by
  intro n i hallowed
  refine h n i fun m hm => ?_
  simpa only [Machine.recording, Execution.recording, Option.isSome_map] using hallowed m hm

theorem exists_step {n : ℕ} {i : ι} (hinput : e.input n = some i) :
    ∃ o, M.step (e.state n) i = some (e.state (n + 1), o) := by
  have hnext := e.next n
  rwa [hinput] at hnext

theorem state_succ {n : ℕ} {i : ι} {s' : σ} {o : ω} (hinput : e.input n = some i)
    (hstep : M.step (e.state n) i = some (s', o)) : e.state (n + 1) = s' := by
  obtain ⟨o', hnext⟩ := e.exists_step hinput
  cases hnext.symm.trans hstep
  rfl

theorem keeps {I : σ → Prop} {n m : ℕ} (hm : n ≤ m)
    (hstep : ∀ k, n ≤ k → k < m → I (e.state k) → ∀ i s' o, e.input k = some i →
      M.step (e.state k) i = some (s', o) → I s') (hn : I (e.state n)) : I (e.state m) := by
  induction m, hm using Nat.le_induction with
  | base => exact hn
  | succ m hm ih =>
      have hkept := ih fun k hk hlt => hstep k hk (Nat.lt_succ_of_lt hlt)
      have hnext := e.next m
      cases hinput : e.input m with
      | none =>
          rw [hinput] at hnext
          exact hnext ▸ hkept
      | some i =>
          rw [hinput] at hnext
          obtain ⟨o, hnext⟩ := hnext
          exact hstep m hm (Nat.lt_succ_self m) hkept i _ o hinput hnext

theorem exists_change {α : Type*} (f : σ → α) {n m : ℕ} (hm : n ≤ m)
    (hne : f (e.state m) ≠ f (e.state n)) :
    ∃ k i o, n ≤ k ∧ f (e.state k) = f (e.state n) ∧ e.input k = some i ∧
      M.step (e.state k) i = some (e.state (k + 1), o) ∧
        f (e.state (k + 1)) ≠ f (e.state n) := by
  by_contra hnone
  refine hne ?_
  induction m, hm using Nat.le_induction with
  | base => rfl
  | succ m hm ih =>
      have hsame : f (e.state m) = f (e.state n) := not_not.1 fun h => h (ih h)
      have hnext := e.next m
      cases hinput : e.input m with
      | none =>
          rw [hinput] at hnext
          rw [hnext, hsame]
      | some i =>
          rw [hinput] at hnext
          obtain ⟨o, hnext⟩ := hnext
          exact not_not.1 fun h => hnone ⟨m, i, o, hm, hsame, hinput, hnext, h⟩

/-- What every input that meets `ok` keeps holds at all times. -/
theorem Meets.invariant {I : σ → Prop} {ok : σ → ι → Prop} (h : e.Meets ok)
    (hstep : ∀ s i s' o, I s → ok s i → M.step s i = some (s', o) → I s')
    (hzero : I (e.state 0)) (n : ℕ) : I (e.state n) :=
  keeps (Nat.zero_le n) (fun m _ _ hm i s' o hinput => hstep _ i s' o hm (h m i hinput)) hzero

/-- An input that somebody is about to feed as long as `I` holds, and that is the only one
that ends `I`, is fed while it holds. -/
theorem WeaklyFair.exists_input {acts : σ → ι → Prop} (h : e.WeaklyFair acts) {I : σ → Prop}
    {n : ℕ} {i : ι} (hacts : ∀ s, I s → acts s i ∧ (M.step s i).isSome = true)
    (hkeeps : ∀ m, n ≤ m → I (e.state m) → ∀ j s' o, e.input m = some j → j ≠ i →
      M.step (e.state m) j = some (s', o) → I s') (hn : I (e.state n)) :
    ∃ m, n ≤ m ∧ e.input m = some i ∧ I (e.state m) := by
  classical
  have huntil {m : ℕ} (hm : n ≤ m) (hnot : ∀ k, n ≤ k → k < m → e.input k ≠ some i) :
      I (e.state m) :=
    keeps hm (fun k hk hlt hI j s' o hinput => hkeeps k hk hI j s' o hinput
      fun heq => hnot k hk hlt (heq ▸ hinput)) hn
  have hfed : ∃ m, n ≤ m ∧ e.input m = some i := by
    by_contra hnone
    have hnot (m : ℕ) (hm : n ≤ m) : e.input m ≠ some i := fun hinput => hnone ⟨m, hm, hinput⟩
    obtain ⟨m, hm, hinput⟩ := h n i fun m hm => hacts _ (huntil hm fun k hk _ => hnot k hk)
    exact hnot m hm hinput
  -- the first time that it is fed
  obtain ⟨hm, hinput⟩ := Nat.find_spec hfed
  exact ⟨Nat.find hfed, hm, hinput,
    huntil hm fun k hk hlt hk' => Nat.find_min hfed hlt ⟨hk, hk'⟩⟩

section Fed

def fed (M : Machine σ ι ω) (s : σ) (input : ℕ → Option ι) : ℕ → σ
  | 0 => s
  | n + 1 =>
      let t := fed M s input n
      ((input n).bind fun i => (M.step t i).map Prod.fst).getD t

variable {s t : σ} {is js : List ι} {os os' : List ω} {input : ℕ → Option ι}

def feeding (M : Machine σ ι ω) (s : σ) (input : ℕ → Option ι)
    (h : ∀ n i, input n = some i → (M.step (fed M s input n) i).isSome = true) : Execution M where
  state := fed M s input
  input := input
  next n := by
    cases hinput : input n with
    | none => simp only [fed, hinput, Option.bind_none, Option.getD_none]
    | some i =>
        obtain ⟨⟨t, o⟩, hstep⟩ := Option.isSome_iff_exists.1 (h n i hinput)
        exact ⟨o, by simp only [fed, hinput, Option.bind_some, hstep, Option.map_some,
          Option.getD_some]⟩

/-- When the inputs from the time `n` on are those of a run. -/
theorem fed_of_run {n : ℕ} (hn : fed M s input n = t) (hinput : ∀ k, k < is.length →
    input (n + k) = is[k]?) {u : σ} (hrun : M.run t is = some (u, os)) :
    fed M s input (n + is.length) = u ∧
      ∀ k, k < is.length → ∀ i, input (n + k) = some i →
        (M.step (fed M s input (n + k)) i).isSome = true := by
  induction is generalizing n t os with
  | nil =>
      cases hrun
      exact ⟨hn, fun k hk => absurd hk (Nat.not_lt_zero k)⟩
  | cons i is ih =>
      obtain ⟨v, o, os₁, hstep, hrest, rfl⟩ := (run_cons_eq_some_iff M t i is u os).1 hrun
      have hfirst : input n = some i := hinput 0 (Nat.succ_pos _)
      have hnext : fed M s input (n + 1) = v := by
        simp only [fed, hfirst, hn, Option.bind_some, hstep, Option.map_some, Option.getD_some]
      have hshift (k : ℕ) : n + 1 + k = n + (k + 1) := by omega
      obtain ⟨hend, hallowed⟩ := ih hnext (fun k hk => by
        rw [hshift]
        exact hinput (k + 1) (Nat.succ_lt_succ hk)) hrest
      refine ⟨by rw [List.length_cons, ← hend, hshift], fun k hk j hj => ?_⟩
      cases k with
      | zero =>
          cases hfirst.symm.trans hj
          rw [Nat.add_zero, hn, hstep]
          rfl
      | succ k =>
          rw [← hshift] at hj ⊢
          exact hallowed k (Nat.lt_of_succ_lt_succ hk) j hj

theorem meets_fed_of_run {ok : σ → ι → Prop} {n : ℕ} (hn : fed M s input n = t)
    (hinput : ∀ k, k < is.length → input (n + k) = is[k]?) {u : σ}
    (hrun : M.run t is = some (u, os)) (hmeets : M.Meets ok t is) :
    ∀ k, k < is.length → ∀ i, input (n + k) = some i → ok (fed M s input (n + k)) i := by
  induction is generalizing n t os with
  | nil => exact fun k hk => absurd hk (Nat.not_lt_zero k)
  | cons i is ih =>
      obtain ⟨v, o, os₁, hstep, hrest, rfl⟩ := (run_cons_eq_some_iff M t i is u os).1 hrun
      obtain ⟨hok, hmeets'⟩ := (meets_cons hstep).1 hmeets
      have hfirst : input n = some i := hinput 0 (Nat.succ_pos _)
      have hnext : fed M s input (n + 1) = v := by
        simp only [fed, hfirst, hn, Option.bind_some, hstep, Option.map_some, Option.getD_some]
      have hshift (k : ℕ) : n + 1 + k = n + (k + 1) := by omega
      intro k hk j hj
      cases k with
      | zero =>
          cases hfirst.symm.trans hj
          rwa [Nat.add_zero, hn]
      | succ k =>
          rw [← hshift] at hj ⊢
          refine ih hnext (fun k hk => ?_) hrest hmeets' k (Nat.lt_of_succ_lt_succ hk) j hj
          rw [hshift]
          exact hinput (k + 1) (Nat.succ_lt_succ hk)

def cycle (is js : List ι) (n : ℕ) : Option ι :=
  if n < is.length then is[n]? else js[(n - is.length) % js.length]?

theorem cycle_add (is js : List ι) (k : ℕ) {j : ℕ} (hj : j < js.length) :
    cycle is js (is.length + k * js.length + j) = js[j]? := by
  have hsub : is.length + k * js.length + j - is.length = j + k * js.length := by omega
  rw [cycle, if_neg (by omega), hsub, Nat.add_mul_mod_self_right, Nat.mod_eq_of_lt hj]

/-- From a state with `P k`, the inputs lead to one with `P (k + 1)`. -/
def Cycles (M : Machine σ ι ω) (js : List ι) (P : ℕ → σ → Prop) : Prop :=
  ∀ k u, P k u → ∃ v os, M.run u js = some (v, os) ∧ P (k + 1) v

variable {P : ℕ → σ → Prop}

theorem cycles_of_run (h : M.run t js = some (t, os')) : Cycles M js fun _ u => u = t := by
  rintro k u rfl
  exact ⟨u, os', h, rfl⟩

theorem fed_cycle (hrun : M.run s is = some (t, os)) (hzero : P 0 t) (hcycle : Cycles M js P)
    (k : ℕ) : P k (fed M s (cycle is js) (is.length + k * js.length)) := by
  induction k with
  | zero =>
      have hinput : ∀ k, k < is.length → cycle is js (0 + k) = is[k]? := fun k hk => by
        rw [Nat.zero_add, cycle, if_pos hk]
      have hend := (fed_of_run (s := s) rfl hinput hrun).1
      rw [Nat.zero_add] at hend
      rwa [Nat.zero_mul, Nat.add_zero, hend]
  | succ k ih =>
      obtain ⟨v, os', hv, hP⟩ := hcycle k _ ih
      have hend := (fed_of_run rfl (fun j hj => cycle_add is js k hj) hv).1
      rw [Nat.add_assoc, ← Nat.succ_mul] at hend
      exact hend.symm ▸ hP

theorem isSome_fed_cycle (hrun : M.run s is = some (t, os)) (hzero : P 0 t)
    (hcycle : Cycles M js P) (n : ℕ) (i : ι) (hi : cycle is js n = some i) :
    (M.step (fed M s (cycle is js) n) i).isSome = true := by
  rcases lt_or_ge n is.length with hlt | hge
  · have hinput : ∀ k, k < is.length → cycle is js (0 + k) = is[k]? := fun k hk => by
      rw [Nat.zero_add, cycle, if_pos hk]
    have hallowed := (fed_of_run (s := s) rfl hinput hrun).2 n hlt i
    rw [Nat.zero_add] at hallowed
    exact hallowed hi
  · have hpos : 0 < js.length := by
      rw [cycle, if_neg (not_lt.2 hge)] at hi
      exact List.length_pos_of_mem (List.mem_of_getElem? hi)
    have hmod := Nat.mod_lt (n - is.length) hpos
    have hn : n = is.length + (n - is.length) / js.length * js.length +
        (n - is.length) % js.length := by
      have hdiv := Nat.div_add_mod' (n - is.length) js.length
      omega
    rw [hn] at hi ⊢
    obtain ⟨v, os', hv, -⟩ := hcycle _ _ (fed_cycle hrun hzero hcycle ((n - is.length) / js.length))
    exact (fed_of_run rfl (fun j hj => cycle_add is js _ hj) hv).2 _ hmod i hi

def cycling (hrun : M.run s is = some (t, os)) (hzero : P 0 t) (hcycle : Cycles M js P) :
    Execution M :=
  feeding M s (cycle is js) (isSome_fed_cycle hrun hzero hcycle)

section Cycling

variable (hrun : M.run s is = some (t, os)) (hzero : P 0 t) (hcycle : Cycles M js P)

theorem state_cycling (k : ℕ) :
    P k ((cycling hrun hzero hcycle).state (is.length + k * js.length)) :=
  fed_cycle hrun hzero hcycle k

theorem input_cycling {n : ℕ} {i : ι} (h : (cycling hrun hzero hcycle).input n = some i) :
    is[n]? = some i ∨ i ∈ js := by
  change cycle is js n = some i at h
  unfold cycle at h
  split at h
  · exact Or.inl h
  · exact Or.inr (List.mem_of_getElem? h)

theorem meets_cycling {ok : σ → ι → Prop} (his : M.Meets ok s is)
    (hjs : ∀ k u, P k u → M.Meets ok u js) : (cycling hrun hzero hcycle).Meets ok := by
  intro n i hi
  change cycle is js n = some i at hi
  change ok (fed M s (cycle is js) n) i
  rcases lt_or_ge n is.length with hlt | hge
  · have hinput : ∀ k, k < is.length → cycle is js (0 + k) = is[k]? := fun k hk => by
      rw [Nat.zero_add, cycle, if_pos hk]
    have hok := meets_fed_of_run (s := s) rfl hinput hrun his n hlt i
    rw [Nat.zero_add] at hok
    exact hok hi
  · have hpos : 0 < js.length := by
      rw [cycle, if_neg (not_lt.2 hge)] at hi
      exact List.length_pos_of_mem (List.mem_of_getElem? hi)
    have hmod := Nat.mod_lt (n - is.length) hpos
    have hn : n = is.length + (n - is.length) / js.length * js.length +
        (n - is.length) % js.length := by
      have hdiv := Nat.div_add_mod' (n - is.length) js.length
      omega
    rw [hn] at hi ⊢
    have hP := fed_cycle hrun hzero hcycle ((n - is.length) / js.length)
    obtain ⟨v, os', hv, -⟩ := hcycle _ _ hP
    exact meets_fed_of_run rfl (fun j hj => cycle_add is js _ hj) hv (hjs _ _ hP) _ hmod i hi

theorem weaklyFair_cycling {acts : σ → ι → Prop}
    (hacts : ∀ k u, P k u → ∀ i, acts u i → i ∈ js ∨ M.step u i = none) :
    (cycling hrun hzero hcycle).WeaklyFair acts := by
  intro n i hallowed
  rcases Nat.eq_zero_or_pos js.length with hlen | hlen
  · -- Nothing happens any more.
    obtain rfl := List.length_eq_zero_iff.1 hlen
    have hlast (k : ℕ) : P 0 ((cycling hrun hzero hcycle).state (is.length + k)) := by
      induction k with
      | zero => exact state_cycling hrun hzero hcycle 0
      | succ k ih =>
          have hnext := (cycling hrun hzero hcycle).next (is.length + k)
          have hnone : (cycling hrun hzero hcycle).input (is.length + k) = none := by
            change cycle is [] (is.length + k) = none
            rw [cycle, if_neg (by omega)]
            rfl
          rw [hnone] at hnext
          exact hnext.symm ▸ ih
    obtain ⟨hact, hsome⟩ := hallowed (is.length + n) (Nat.le_add_left _ _)
    rw [(hacts 0 _ (hlast n) i hact).resolve_left List.not_mem_nil] at hsome
    cases hsome
  · have hle : n ≤ is.length + n * js.length :=
      (Nat.le_mul_of_pos_right n hlen).trans (Nat.le_add_left _ _)
    obtain ⟨hact, hsome⟩ := hallowed _ hle
    rcases hacts n _ (state_cycling hrun hzero hcycle n) i hact with hmem | hnone
    · obtain ⟨j, hj, hget⟩ := List.mem_iff_getElem.1 hmem
      refine ⟨is.length + n * js.length + j, hle.trans (Nat.le_add_right _ _), ?_⟩
      exact (cycle_add is js n hj).trans (List.getElem?_eq_some_iff.2 ⟨hj, hget⟩)
    · rw [hnone] at hsome
      cases hsome

end Cycling

end Fed

end Execution

/-- `left` counts down to zero from the states with `I`, by the inputs `acts`. -/
structure CountsDown (M : Machine σ ι ω) (ok acts : σ → ι → Prop) (I : σ → Prop)
    (left : σ → ℕ) : Prop where
  keeps : ∀ s i s' o, I s → ok s i → M.step s i = some (s', o) → I s'
  le : ∀ s i s' o, I s → ok s i → M.step s i = some (s', o) → left s' ≤ left s
  helps : ∀ s, I s → left s ≠ 0 → ∃ i, acts s i ∧ M.Helps left s i
  stays : ∀ s i j s' o, I s → acts s i → M.Helps left s i → ok s j →
    M.step s j = some (s', o) → left s' < left s ∨ acts s' i ∧ M.Helps left s' i

namespace CountsDown

variable {M : Machine σ ι ω} {ok acts : σ → ι → Prop} {I : σ → Prop} {left : σ → ℕ}
  {e : Execution M}

theorem left_succ_le (h : CountsDown M ok acts I left) (hok : e.Meets ok) (hzero : I (e.state 0))
    (n : ℕ) :
    left (e.state (n + 1)) ≤ left (e.state n) := by
  have hnext := e.next n
  cases hinput : e.input n with
  | none =>
      rw [hinput] at hnext
      rw [hnext]
  | some i =>
      rw [hinput] at hnext
      obtain ⟨o, hnext⟩ := hnext
      exact h.le _ i _ o (hok.invariant h.keeps hzero n) (hok n i hinput) hnext

theorem antitone (h : CountsDown M ok acts I left) (hok : e.Meets ok) (hzero : I (e.state 0)) :
    Antitone fun n => left (e.state n) :=
  antitone_nat_of_succ_le (h.left_succ_le hok hzero)

theorem helps_of_eq (h : CountsDown M ok acts I left) (hok : e.Meets ok)
    (hzero : I (e.state 0)) {n : ℕ} {i : ι}
    (hhelps : acts (e.state n) i ∧ M.Helps left (e.state n) i)
    (hsame : ∀ m, n ≤ m → left (e.state m) = left (e.state n)) {m : ℕ} (hm : n ≤ m) :
    acts (e.state m) i ∧ M.Helps left (e.state m) i := by
  induction m, hm using Nat.le_induction with
  | base => exact hhelps
  | succ m hm ih =>
      have hnext := e.next m
      cases hinput : e.input m with
      | none =>
          rw [hinput] at hnext
          exact hnext ▸ ih
      | some j =>
          rw [hinput] at hnext
          obtain ⟨o, hnext⟩ := hnext
          rcases h.stays _ i j _ o (hok.invariant h.keeps hzero m) ih.1 ih.2 (hok m j hinput) hnext
            with hlt | hstays
          · rw [hsame m hm, hsame (m + 1) (Nat.le_succ_of_le hm)] at hlt
            exact absurd hlt (lt_irrefl _)
          · exact hstays

theorem eventually (h : CountsDown M ok acts I left) (hok : e.Meets ok) (hzero : I (e.state 0))
    (hfair : e.WeaklyFair acts) : ∃ n, ∀ m, n ≤ m → left (e.state m) = 0 := by
  suffices hreach : ∀ k n, left (e.state n) = k → ∃ m, left (e.state m) = 0 by
    obtain ⟨n, hn⟩ := hreach _ 0 rfl
    exact ⟨n, fun m hm => Nat.eq_zero_of_le_zero (hn ▸ h.antitone hok hzero hm)⟩
  intro k
  induction k using Nat.strong_induction_on with
  | _ k ih =>
    intro n hn
    by_cases hk : k = 0
    · exact ⟨n, hn.trans hk⟩
    by_cases hsame : ∀ m, n ≤ m → left (e.state m) = left (e.state n)
    · -- The input that helps would have to be fed, and then the measure is smaller.
      obtain ⟨i, hhelps⟩ := h.helps _ (hok.invariant h.keeps hzero n) (hn.symm ▸ hk)
      have hstays {m : ℕ} (hm : n ≤ m) := h.helps_of_eq hok hzero hhelps hsame hm
      obtain ⟨m, hm, hinput⟩ := hfair n i fun m hm => by
        obtain ⟨hacts, s', o, hstep, -⟩ := hstays hm
        exact ⟨hacts, Option.isSome_iff_exists.2 ⟨_, hstep⟩⟩
      obtain ⟨-, s', o, hstep, hlt⟩ := hstays hm
      obtain ⟨o', hnext⟩ := e.exists_step hinput
      cases hnext.symm.trans hstep
      rw [hsame m hm, hsame (m + 1) (Nat.le_succ_of_le hm)] at hlt
      exact absurd hlt (lt_irrefl _)
    · simp only [not_forall] at hsame
      obtain ⟨m, hm, hne⟩ := hsame
      have hlt : left (e.state m) < k := hn ▸ lt_of_le_of_ne (h.antitone hok hzero hm) hne
      exact ih _ hlt m rfl

end CountsDown

end Machine

end Foundation
