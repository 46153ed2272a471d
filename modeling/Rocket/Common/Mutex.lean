import Mathlib.Logic.Function.Basic
import Rocket.Foundation.Machine

/-!
# Mutex and ScopeMutex

Threads that share one mutex, each through a sequence of `ScopeMutex` guards. A
guard locks the mutex when it is constructed and unlocks it when it is destroyed;
in between, the thread may call `lock` and `unlock` on it. The mutex is an owner,
whom `unlock` forgets, no matter who calls it.

Neither `lock` nor `unlock` changes `m_is_lock`, so the flag says that the guard
is alive, not that it holds the mutex.
-/

namespace Rocket

open Foundation

/-- `Mutex`, with the thread that holds it. -/
structure Mutex (τ : Type) where
  owner : Option τ := none
  deriving DecidableEq, Repr

/-- The member `m_is_lock` of a `ScopeMutex`. -/
structure ScopeMutex where
  isLock : Bool := false
  deriving DecidableEq, Repr

inductive GuardCall where
  | lock
  | unlock
  deriving DecidableEq, Repr

namespace Mutex

variable {τ : Type}

/-- `Mutex::lock`. A thread waits while the mutex is held. -/
def lock (m : Mutex τ) (t : τ) : Option (Mutex τ) :=
  if m.owner = none then some ⟨some t⟩ else none

/-- `Mutex::unlock`. -/
def unlock (_ : Mutex τ) : Mutex τ := ⟨none⟩

end Mutex

namespace ScopeMutex

variable {τ : Type}

/-- `ScopeMutex::ScopeMutex`. -/
def new (m : Mutex τ) (t : τ) : Option (Mutex τ × ScopeMutex) :=
  (m.lock t).map fun m => (m, { isLock := true })

/-- `ScopeMutex::~ScopeMutex`. -/
def destroy (_ : ScopeMutex) (m : Mutex τ) : Mutex τ × ScopeMutex :=
  (m.unlock, { isLock := false })

/-- `ScopeMutex::lock`. -/
def lock (g : ScopeMutex) (m : Mutex τ) (t : τ) : Option (Mutex τ × ScopeMutex) :=
  if !g.isLock then (m.lock t).map fun m => (m, g) else some (m, g)

/-- `ScopeMutex::unlock`. -/
def unlock (g : ScopeMutex) (m : Mutex τ) : Mutex τ × ScopeMutex :=
  (if g.isLock then m.unlock else m, g)

end ScopeMutex

/-- A thread: its guard, if it is in a scope; what it has still to do with this guard;
and the scopes behind this one. `inside` says whether it is in a section, between a
construction or a `lock` and the next `unlock` or destruction. -/
structure ScopeThread where
  guard : Option ScopeMutex := none
  inside : Bool := false
  calls : List GuardCall := []
  scopes : List (List GuardCall)
  deriving DecidableEq, Repr

/-- The next step of a thread calls `Mutex::unlock`. -/
def ScopeThread.Releases (thread : ScopeThread) : Prop :=
  ∃ g, thread.guard = some g ∧
    (thread.calls = [] ∨ thread.calls.head? = some .unlock ∧ g.isLock = true)

/-- Threads that share a mutex. -/
structure ScopeRun (τ : Type) where
  mutex : Mutex τ := {}
  threads : τ → ScopeThread

namespace ScopeRun

variable {τ : Type}

def new (scopes : τ → List (List GuardCall)) : ScopeRun τ where
  threads t := { scopes := scopes t }

variable [DecidableEq τ]

/-- The thread `t` has taken a step. -/
def set (s : ScopeRun τ) (t : τ) (m : Mutex τ) (thread : ScopeThread) : ScopeRun τ :=
  ⟨m, Function.update s.threads t thread⟩

/-- One step of the thread `t`. -/
def step (s : ScopeRun τ) (t : τ) : Option (ScopeRun τ) :=
  let thread := s.threads t
  match thread.guard, thread.calls with
  | none, _ =>
      match thread.scopes with
      | [] => none
      | calls :: scopes =>
          (ScopeMutex.new s.mutex t).map fun (m, g) => s.set t m ⟨some g, true, calls, scopes⟩
  | some g, [] => some (s.set t (g.destroy s.mutex).1 ⟨none, false, [], thread.scopes⟩)
  | some g, .lock :: calls =>
      (g.lock s.mutex t).map fun (m, g) => s.set t m ⟨some g, true, calls, thread.scopes⟩
  | some g, .unlock :: calls =>
      let (m, g) := g.unlock s.mutex
      some (s.set t m ⟨some g, false, calls, thread.scopes⟩)

def machine : Machine (ScopeRun τ) τ Unit := ⟨fun s t => (s.step t).map fun s' => (s', ())⟩

/-- The guards keep the threads apart. -/
structure Safe (s : ScopeRun τ) : Prop where
  exclusive : ∀ t t', (s.threads t).inside = true → (s.threads t').inside = true → t = t'
  releases : ∀ t, (s.threads t).Releases → s.mutex.owner = some t
  destroyed : ∀ t, (s.threads t).guard = none → s.mutex.owner ≠ some t

/-- A thread of which no guard is ever unlocked is inside as long as it has a guard, and
then it holds the mutex. -/
structure Steady (s : ScopeRun τ) (t : τ) : Prop where
  calls : GuardCall.unlock ∉ (s.threads t).calls
  scopes : ∀ calls ∈ (s.threads t).scopes, GuardCall.unlock ∉ calls
  guarded : ((s.threads t).guard = none ∧ (s.threads t).inside = false ∧ s.mutex.owner ≠ some t) ∨
    ((s.threads t).guard = some ⟨true⟩ ∧ s.mutex.owner = some t)

variable {s s' : ScopeRun τ} {t : τ}

omit [DecidableEq τ] in
theorem safe_of_steady (h : ∀ t, s.Steady t) : s.Safe := by
  have howner : ∀ t, (s.threads t).inside = true → s.mutex.owner = some t := by
    intro t hinside
    rcases (h t).guarded with ⟨_, houtside, _⟩ | ⟨_, howner⟩
    · cases houtside.symm.trans hinside
    · exact howner
  refine ⟨fun t t' ht ht' => ?_, ?_, ?_⟩
  · exact Option.some.inj ((howner t ht).symm.trans (howner t' ht'))
  · rintro t ⟨g, hguard, _⟩
    rcases (h t).guarded with ⟨hnone, _, _⟩ | ⟨_, howner⟩
    · cases hnone.symm.trans hguard
    · exact howner
  · intro t hguard
    rcases (h t).guarded with ⟨_, _, howner⟩ | ⟨hsome, _⟩
    · exact howner
    · cases hguard.symm.trans hsome

/-- A step of `t` leaves the other threads alone, as long as it does not take the mutex
from one of them. -/
theorem Steady.set {t' : τ} (h : s.Steady t') (hne : t' ≠ t) {m : Mutex τ} {thread : ScopeThread}
    (howner : m.owner = some t' ↔ s.mutex.owner = some t') : (s.set t m thread).Steady t' := by
  have hthread : (s.set t m thread).threads t' = s.threads t' := Function.update_of_ne hne _ _
  refine ⟨?_, ?_, ?_⟩
  · rw [hthread]
    exact h.calls
  · rw [hthread]
    exact h.scopes
  · rw [hthread]
    exact h.guarded.imp (fun ⟨hguard, houtside, hnot⟩ => ⟨hguard, houtside, mt howner.1 hnot⟩)
      fun ⟨hguard, hown⟩ => ⟨hguard, howner.2 hown⟩

/-- The steps of a steady thread: it constructs a guard, destroys it, or calls `lock`,
which does nothing. -/
theorem Steady.step_cases (h : s.Steady t) (hstep : s.step t = some s') :
    (∃ calls scopes, (s.threads t).scopes = calls :: scopes ∧ s.mutex.owner = none ∧
      s' = s.set t ⟨some t⟩ ⟨some ⟨true⟩, true, calls, scopes⟩) ∨
    (s.mutex.owner = some t ∧ s' = s.set t ⟨none⟩ ⟨none, false, [], (s.threads t).scopes⟩) ∨
    (∃ calls, (s.threads t).calls = .lock :: calls ∧ s.mutex.owner = some t ∧
      s' = s.set t s.mutex ⟨some ⟨true⟩, true, calls, (s.threads t).scopes⟩) := by
  unfold step at hstep
  rcases h.guarded with ⟨hguard, _, _⟩ | ⟨hguard, howner⟩
  · simp only [hguard] at hstep
    cases hscopes : (s.threads t).scopes with
    | nil => simp [hscopes] at hstep
    | cons calls scopes =>
        simp only [hscopes, ScopeMutex.new, Mutex.lock] at hstep
        split_ifs at hstep with hfree
        · cases hstep
          exact Or.inl ⟨calls, scopes, rfl, hfree, rfl⟩
        · cases hstep
  · cases hcalls : (s.threads t).calls with
    | nil =>
        simp only [hguard, hcalls] at hstep
        cases hstep
        exact Or.inr (Or.inl ⟨howner, rfl⟩)
    | cons call calls =>
        cases call with
        | lock =>
            simp only [hguard, hcalls] at hstep
            cases hstep
            exact Or.inr (Or.inr ⟨calls, rfl, howner, rfl⟩)
        | unlock => exact absurd (hcalls ▸ List.mem_cons_self) h.calls

theorem steady_of_step (h : ∀ t, s.Steady t) (hstep : s.step t = some s') (t' : τ) :
    s'.Steady t' := by
  rcases (h t).step_cases hstep with ⟨calls, scopes, hscopes, hfree, rfl⟩ | ⟨howner, rfl⟩ |
    ⟨calls, hcalls, howner, rfl⟩
  · by_cases hne : t' = t
    · subst hne
      have hall := (h t').scopes
      rw [hscopes, List.forall_mem_cons] at hall
      exact ⟨by simpa [set] using hall.1, by simpa [set] using hall.2, Or.inr (by simp [set])⟩
    · exact (h t').set hne (by simp [hfree, Ne.symm hne])
  · by_cases hne : t' = t
    · subst hne
      exact ⟨by simp [set], by simpa [set] using (h t').scopes, Or.inl (by simp [set])⟩
    · exact (h t').set hne (by simp [howner, Ne.symm hne])
  · by_cases hne : t' = t
    · subst hne
      have hall := (h t').calls
      rw [hcalls, List.mem_cons, not_or] at hall
      exact ⟨by simpa [set] using hall.2, by simpa [set] using (h t').scopes,
        Or.inr (by simp [set, howner])⟩
    · exact (h t').set hne Iff.rfl

/-- Every run from `s` is safe. -/
def Always (s : ScopeRun τ) : Prop :=
  ∀ ops s' outs, machine.run s ops = some (s', outs) → s'.Safe

theorem Always.of_step (h : s.Always) (hstep : s.step t = some s') : s'.Always := by
  intro ops u outs hrun
  have hmachine : machine.step s t = some (s', ()) := by simp [machine, hstep]
  exact h (t :: ops) u _ (Machine.run_cons hmachine hrun)

theorem step_of_lock {calls : List GuardCall} (hguard : (s.threads t).guard = some ⟨true⟩)
    (hcalls : (s.threads t).calls = .lock :: calls) :
    s.step t = some (s.set t s.mutex ⟨some ⟨true⟩, true, calls, (s.threads t).scopes⟩) := by
  simp only [step, hguard, hcalls]
  rfl

/-- A guard that does not hold the mutex is going to release it all the same. -/
theorem not_always_of_released (hguard : (s.threads t).guard = some ⟨true⟩)
    (howner : s.mutex.owner ≠ some t) : ¬ s.Always := by
  intro halways
  have hsafe : s.Safe := halways [] s [] rfl
  induction hcalls : (s.threads t).calls generalizing s with
  | nil => exact howner (hsafe.releases t ⟨_, hguard, Or.inl hcalls⟩)
  | cons call calls ih =>
      cases call with
      | lock =>
          have hnext := halways.of_step (step_of_lock hguard hcalls)
          exact ih (s := s.set t s.mutex ⟨some ⟨true⟩, true, calls, (s.threads t).scopes⟩)
            (by simp [set]) howner hnext (hnext [] _ [] rfl) (by simp [set])
      | unlock =>
          exact howner (hsafe.releases t ⟨_, hguard, Or.inr ⟨by rw [hcalls]; rfl, rfl⟩⟩)

/-- A thread that is always safe does not unlock the guard of the scope it is in, and
gets to the end of the scope on its own. -/
theorem Always.calls (h : s.Always) (hguard : (s.threads t).guard = some ⟨true⟩) :
    GuardCall.unlock ∉ (s.threads t).calls ∧ ∃ s' : ScopeRun τ, s'.Always ∧
      s'.mutex.owner = none ∧ (s'.threads t).guard = none ∧
      (s'.threads t).scopes = (s.threads t).scopes := by
  induction hcalls : (s.threads t).calls generalizing s with
  | nil =>
      have hstep : s.step t = some (s.set t ⟨none⟩ ⟨none, false, [], (s.threads t).scopes⟩) := by
        simp only [step, hguard, hcalls]
        rfl
      exact ⟨List.not_mem_nil, _, h.of_step hstep, rfl, by simp [set], by simp [set]⟩
  | cons call calls ih =>
      cases call with
      | lock =>
          obtain ⟨hcalls', s', halways, howner, hguard', hscopes⟩ :=
            ih (h.of_step (step_of_lock hguard hcalls)) (by simp [set]) (by simp [set])
          refine ⟨by simpa using hcalls', s', halways, howner, hguard', ?_⟩
          simpa [set] using hscopes
      | unlock =>
          have hstep : s.step t =
              some (s.set t ⟨none⟩ ⟨some ⟨true⟩, false, calls, (s.threads t).scopes⟩) := by
            simp only [step, hguard, hcalls]
            rfl
          exact absurd (h.of_step hstep) (not_always_of_released (t := t) (by simp [set]) nofun)

theorem Always.scopes (h : s.Always) (howner : s.mutex.owner = none)
    (hguard : (s.threads t).guard = none) :
    ∀ calls ∈ (s.threads t).scopes, GuardCall.unlock ∉ calls := by
  induction hscopes : (s.threads t).scopes generalizing s with
  | nil => exact fun _ hmem => absurd hmem List.not_mem_nil
  | cons calls scopes ih =>
      have hstep : s.step t = some (s.set t ⟨some t⟩ ⟨some ⟨true⟩, true, calls, scopes⟩) := by
        simp only [step, hguard, hscopes, ScopeMutex.new, Mutex.lock, if_pos howner]
        rfl
      obtain ⟨hcalls, s', halways, howner', hguard', hscopes'⟩ :=
        (h.of_step hstep).calls (t := t) (by simp [set])
      have hthread : (s.set t ⟨some t⟩ ⟨some ⟨true⟩, true, calls, scopes⟩).threads t =
          ⟨some ⟨true⟩, true, calls, scopes⟩ := Function.update_self _ _ _
      rw [hthread] at hcalls hscopes'
      exact List.forall_mem_cons.2 ⟨hcalls, ih halways howner' hguard' hscopes'⟩

/-- The guards keep the threads apart in every state of every run exactly when no thread
ever calls `unlock` on a guard. -/
theorem safe_iff_not_unlock (scopes : τ → List (List GuardCall)) :
    (∀ ops s outs, machine.run (new scopes) ops = some (s, outs) → s.Safe) ↔
      ∀ t, ∀ calls ∈ scopes t, GuardCall.unlock ∉ calls := by
  constructor
  · intro halways t
    exact Always.scopes (s := new scopes) halways rfl rfl
  · intro hscopes ops s outs hrun
    refine safe_of_steady (Machine.run_invariant machine (I := fun s => ∀ t, s.Steady t)
      (fun u t u' out hu hstep => ?_) (fun t => ?_) hrun)
    · rcases Option.map_eq_some_iff.1 hstep with ⟨v, hv, heq⟩
      cases heq
      exact steady_of_step hu hv
    · exact ⟨List.not_mem_nil, hscopes t, Or.inl ⟨rfl, rfl, nofun⟩⟩

/-- The first thread unlocks its guard, the second one takes the mutex, and the guard of
the first one releases it when it is destroyed. -/
theorem not_safe_unlock : ∃ s, (machine.run (new fun t : Fin 2 => if t = 0 then [[.unlock], []]
      else [[]]) [0, 0, 1, 0, 0]).map Prod.fst = some s ∧
    (s.threads 0).inside = true ∧ (s.threads 1).inside = true ∧ ¬ s.Safe := by
  have hrun : ((machine.run (new fun t : Fin 2 => if t = 0 then [[GuardCall.unlock], []]
      else [[]]) [0, 0, 1, 0, 0]).map fun p => ((p.1.threads 0).inside, (p.1.threads 1).inside)) =
      some (true, true) := by decide
  rcases Option.map_eq_some_iff.1 hrun with ⟨⟨s, outs⟩, hrun, hinside⟩
  obtain ⟨hfirst, hsecond⟩ := Prod.mk.inj hinside
  refine ⟨s, by rw [hrun]; rfl, hfirst, hsecond, fun hsafe => ?_⟩
  exact absurd (hsafe.exclusive 0 1 hfirst hsecond) (by decide)

end ScopeRun

end Rocket
