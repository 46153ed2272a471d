import Rocket.Coroutine.Transfer

/-!
# Coroutines that have nothing to do

A coroutine on which no callback has been set, or whose callback has returned, should not be
resumed. `Resume` tests `m_can_resume` for it, which is true from the start, and which
nothing sets to false. So only the other test of `Resume` refuses such a coroutine, the one
for a caller that is not the main coroutine (`refused_iff`).
-/

namespace Rocket

open Foundation

variable {ι α β : Type}

/-- What has been done with a coroutine, as far as its callback goes. -/
inductive CorPhase (β : Type) where
  | unset
  | set (cb : β)
  | entered
  | returned
  deriving DecidableEq, Repr

def CorPhase.armed : CorPhase β → Bool
  | unset | returned => false
  | set _ | entered => true

def CorPhase.ofStage : Option (CorStage ι α β) → CorPhase β
  | none => unset
  | some (.start cb) => set cb
  | some (.running _) => entered
  | some .returned => returned

variable [DecidableEq ι]

/-- The phase of the coroutine `k` after one more event. -/
def CorPhase.after (k : ι) (phase : CorPhase β) : CorEvent ι α β → CorPhase β
  | .did _ (.setCallBack co cb) true => if co = .cor k then set cb else phase
  | .entered co _ => if co = .cor k then entered else phase
  | .returned co => if co = .cor k then returned else phase
  | _ => phase

/-- The phase of the coroutine `k` after the events of a run. -/
def phaseOf (k : ι) (events : List (CorEvent ι α β)) : CorPhase β :=
  events.foldl (CorPhase.after k) .unset

theorem phaseOf_append_singleton (k : ι) (events : List (CorEvent ι α β)) (e : CorEvent ι α β) :
    phaseOf k (events ++ [e]) = (phaseOf k events).after k e :=
  List.foldl_append ..

namespace Transfers

variable {script : β → List (CorAction ι α β)} {t t' : Transfers ι α β} {e : CorEvent ι α β}

/-- The phase of a coroutine at the stage that it has in `t`. -/
def phase (t : Transfers ι α β) (k : ι) : CorPhase β := .ofStage (t.stage (.cor k))

theorem phase_set (co : CorPtr ι) (stage : CorStage ι α β) (k : ι) :
    (t.set co stage).phase k = if co = .cor k then .ofStage (some stage) else t.phase k := by
  by_cases hco : co = .cor k
  · subst hco
    simp [phase, set]
  · simp [phase, set, hco, Ne.symm hco]

theorem phase_exec {a : CorAction ι α β} {ok : Bool} (hexec : t.exec a = some (t', ok))
    (co : CorPtr ι) (k : ι) : t'.phase k = (t.phase k).after k (.did co a ok) := by
  cases a with
  | step a =>
      cases hexec
      rfl
  | yield =>
      simp only [exec] at hexec
      split at hexec <;> cases hexec <;> rfl
  | resume co' =>
      simp only [exec] at hexec
      split at hexec
      · obtain ⟨_, -, heq⟩ := Option.map_eq_some_iff.1 hexec
        cases heq
        rfl
      · cases hexec
        rfl
  | setCallBack co' cb =>
      cases co' with
      | main =>
          cases hexec
          rfl
      | cor j =>
          simp only [exec] at hexec
          split at hexec
          · cases hexec
            rfl
          · cases hexec
            exact phase_set ..

theorem phase_step (hstep : t.step script = some (t', e)) (k : ι) :
    t'.phase k = (t.phase k).after k e := by
  unfold step at hstep
  split at hstep
  · cases hstep
    exact phase_set ..
  · next a rest hstage =>
      obtain ⟨⟨u, ok⟩, hexec, heq⟩ := Option.map_eq_some_iff.1 hstep
      cases heq
      rw [phase_exec hexec t.current k]
      congr 1
      rw [phase_set]
      split_ifs with hco
      · rw [phase, ← hco, hstage]
        rfl
      · rfl
  · next hstage =>
      cases hcurrent : t.current with
      | main =>
          rw [hcurrent] at hstep
          cases hstep
      | cor j =>
          rw [hcurrent] at hstep
          cases hstep
          exact phase_set ..
  · cases hstep
  · cases hstep

end Transfers

namespace CorThread

variable {script : β → List (CorAction ι α β)} {main : List (CorAction ι α β)}
  {s s' : CorThread ι α β} {events : List (CorEvent ι α β)} {is : List Unit}

theorem phase_of_run (hrun : (machine script).run (new main) is = some (s, events)) :
    s.Sound ∧ ∀ k, s.transfers.phase k = phaseOf k events := by
  refine Machine.run_history
    (I := fun s events => s.Sound ∧ ∀ k, s.transfers.phase k = phaseOf k events) ?_
    ⟨sound_new main, fun k => by rw [transfers_new]; rfl⟩ hrun
  rintro s events _ s' e ⟨hsound, hphase⟩ hstep
  obtain ⟨hsound', hstep'⟩ := hsound.step hstep
  refine ⟨hsound', fun k => ?_⟩
  rw [phaseOf_append_singleton, ← hphase k]
  exact Transfers.phase_step hstep' k

/-- `Resume` of the coroutine `k` returns at once, and the caller goes on. -/
def Refused (script : β → List (CorAction ι α β)) (s : CorThread ι α β) (k : ι)
    (rest : List (CorAction ι α β)) : Prop :=
  ∃ s', s.step script = some (s', .did s.cpu.co (.resume (some (.cor k))) false) ∧
    s'.cpu = ⟨s.cpu.co, .running rest⟩

/-- `Resume` of the coroutine `k` starts the callback `cb` from its beginning. -/
def Starts (script : β → List (CorAction ι α β)) (s : CorThread ι α β) (k : ι) (cb : β) : Prop :=
  ∃ s' s'', s.step script = some (s', .did s.cpu.co (.resume (some (.cor k))) true) ∧
    s'.step script = some (s'', .entered (.cor k) cb) ∧
    s''.cpu = ⟨.cor k, .running (script cb)⟩

/-- A coroutine without a callback to enter or to go on with is not resumed, and one that
has been given a callback starts with it. -/
structure Guards (script : β → List (CorAction ι α β)) (s : CorThread ι α β)
    (events : List (CorEvent ι α β)) : Prop where
  refused : ∀ k rest, s.cpu.place = .running (.resume (some (.cor k)) :: rest) →
    (phaseOf k events).armed = false → s.Refused script k rest
  starts : ∀ k rest cb, s.cpu.place = .running (.resume (some (.cor k)) :: rest) →
    s.cpu.co = .main → phaseOf k events = .set cb → s.Starts script k cb

/-- The main coroutine only resumes a coroutine whose callback has been set and has not
returned since. -/
def ResumesArmed (s : CorThread ι α β) (events : List (CorEvent ι α β)) : Prop :=
  ∀ k rest, s.cpu.place = .running (.resume (some (.cor k)) :: rest) →
    (phaseOf k events).armed = false → s.cpu.co ≠ .main

/-- `Resume` from another coroutine than the main one is refused. -/
theorem Sound.refused {k : ι} {rest : List (CorAction ι α β)} (h : s.Sound)
    (hplace : s.cpu.place = .running (.resume (some (.cor k)) :: rest))
    (hco : s.cpu.co ≠ .main) : s.Refused script k rest := by
  refine ⟨{ s with cpu := ⟨s.cpu.co, .running rest⟩ }, ?_, rfl⟩
  simp only [CorThread.step, hplace, CorThread.exec, CorThread.resume]
  rw [if_pos (h.tCur_eq ▸ hco)]
  rfl

/-- `Resume` from the main coroutine goes on wherever the other one has been left. -/
theorem Sound.step_resume {k : ι} {rest : List (CorAction ι α β)} (h : s.Sound)
    (hplace : s.cpu.place = .running (.resume (some (.cor k)) :: rest))
    (hco : s.cpu.co = .main) :
    s.step script = (s.cors (.cor k)).coctx.map fun c =>
      (({ s with cpu := ⟨.main, .running rest⟩ } : CorThread ι α β).swapped (.cor k) c,
        .did .main (.resume (some (.cor k))) true) := by
  have htCur : s.tCur = .main := h.tCur_eq.trans hco
  simp only [CorThread.step, hplace, hco, CorThread.exec, CorThread.resume, htCur, h.canResume]
  simp [coctxSwap, CorThread.swapped, Function.comp_def]

/-- `CoFunction` enters the callback of its coroutine. -/
theorem step_start {co : CorPtr ι} {cb : β} (hcpu : s.cpu = ⟨co, .start⟩)
    (hcb : (s.cors co).callBack = some cb) :
    s.step script = some ({ s.set co { s.cors co with isInCoFunc := true } with
      cpu := ⟨co, .running (script cb)⟩ }, .entered co cb) := by
  simp only [CorThread.step, hcpu, hcb]
  rfl

/-- A coroutine with a callback to enter is stored at the entry of `CoFunction`. -/
theorem Sound.coctx_start {k : ι} {cb : β} (h : s.Sound) (hco : s.cpu.co = .main)
    (hset : s.transfers.phase k = .set cb) :
    (s.cors (.cor k)).coctx = some ⟨.cor k, .start⟩ ∧ (s.cors (.cor k)).callBack = some cb := by
  have hstage : s.stageOf (.cor k) = some (.start cb) := by
    change CorPhase.ofStage (s.stageOf (.cor k)) = .set cb at hset
    cases hstage : s.stageOf (.cor k) with
    | none =>
        rw [hstage] at hset
        cases hset
    | some stage =>
        rw [hstage] at hset
        cases stage with
        | start cb' =>
            cases hset
            rfl
        | running rest => cases hset
        | returned => cases hset
  obtain ⟨place, hplace, hcb⟩ := Option.bind_eq_some_iff.1 hstage
  rw [placeOf, if_neg (by simp [hco])] at hplace
  obtain ⟨c, hc, rfl⟩ := Option.map_eq_some_iff.1 hplace
  have hself := h.coctx_co _ c hc
  obtain ⟨co, place⟩ := c
  cases hself
  cases place with
  | start =>
      obtain ⟨cb', hcb', heq⟩ := Option.map_eq_some_iff.1 hcb
      cases heq
      exact ⟨hc, hcb'⟩
  | running rest => cases hcb
  | returned => cases hcb

/-- Whether a coroutine that has nothing to do is refused depends on the caller alone. -/
theorem Sound.guards_iff (h : s.Sound) (hphase : ∀ k, s.transfers.phase k = phaseOf k events) :
    Guards script s events ↔ ResumesArmed s events := by
  constructor
  · intro hguards k rest hplace harmed hco
    obtain ⟨s', hstep, -⟩ := hguards.refused k rest hplace harmed
    rw [h.step_resume hplace hco] at hstep
    obtain ⟨c, -, heq⟩ := Option.map_eq_some_iff.1 hstep
    simpa using congrArg Prod.snd heq
  · intro harmed
    refine ⟨fun k rest hplace hnot => h.refused hplace (harmed k rest hplace hnot), ?_⟩
    intro k rest cb hplace hco hset
    obtain ⟨hctx, hcb⟩ := h.coctx_start hco ((hphase k).trans hset)
    have hresume : s.step script = _ := h.step_resume hplace hco
    rw [hctx, Option.map_some] at hresume
    refine ⟨_, _, hco ▸ hresume, step_start rfl ?_, rfl⟩
    simpa [CorThread.swapped, hco] using hcb

/-- In a run a coroutine that has nothing to do is always refused iff the main coroutine
never resumes one. -/
theorem guards_iff_resumesArmed (script : β → List (CorAction ι α β))
    (main : List (CorAction ι α β)) (is : List Unit) :
    (machine script).Along (fun s _ events => Guards script s events) (new main) is ↔
      (machine script).Along (fun s _ events => ResumesArmed s events) (new main) is := by
  refine forall₄_congr fun before after s events => ?_
  refine imp_congr_right fun _ => imp_congr_right fun hrun => ?_
  obtain ⟨hsound, hphase⟩ := phase_of_run hrun
  exact hsound.guards_iff hphase

def finishedMain : List (CorAction ℕ Unit Unit) :=
  [.setCallBack (.cor 0) (), .resume (some (.cor 0)), .resume (some (.cor 0))]

/-- The second `Resume` goes to the end of `CoFunction`. -/
theorem not_guards_finished :
    ¬ (machine fun _ => [.step ()]).Along
      (fun s _ events => Guards (fun _ => [.step ()]) s events) (new finishedMain)
      (List.replicate 5 ()) := by
  intro h
  have hrun : ((machine fun _ => [.step ()]).run (new finishedMain) (List.replicate 5 ())).map
      (fun p => (p.1.cpu, phaseOf 0 p.2, ((p.1.step fun _ => [.step ()]).map Prod.snd))) =
      some (⟨.main, .running [.resume (some (.cor 0))]⟩, .returned,
        some (.did .main (.resume (some (.cor 0))) true)) := by decide
  obtain ⟨⟨s, events⟩, hrun, heq⟩ := Option.map_eq_some_iff.1 hrun
  simp only [Prod.mk.injEq] at heq
  obtain ⟨hcpu, hphase, hstep⟩ := heq
  obtain ⟨s', hrefused, -⟩ := (h.of_run hrun).refused 0 [] (by rw [hcpu]) (by rw [hphase]; rfl)
  rw [hrefused] at hstep
  simp at hstep

end CorThread

end Rocket
