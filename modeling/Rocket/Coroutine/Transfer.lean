import Mathlib.Data.List.Basic
import Rocket.Coroutine.Coroutine

/-!
# Symmetric transfers

`Transfers` says what coroutines are for, without contexts and flags: every
coroutine has a stage, one of them is current, `Resume` passes from the main one to
another, and `Yield` passes back. A thread does exactly this (`refines_transfers`):
`t_cur_coroutine` names the context that is executed, whatever the scripts do, and
no action is skipped or executed twice.
-/

namespace Rocket

open Foundation

variable {ι α β : Type}

/-- How far a coroutine has come: it is going to enter a callback, it has something left
of the script of one, or the callback has returned. -/
inductive CorStage (ι α β : Type) where
  | start (cb : β)
  | running (rest : List (CorAction ι α β))
  | returned
  deriving DecidableEq, Repr

def CorStage.rest : CorStage ι α β → List (CorAction ι α β)
  | .running rest => rest
  | .start _ | .returned => []

/-- The stage of a coroutine that goes on at `place` and has the callback `cb`. -/
def CorPlace.stage (cb : Option β) : CorPlace ι α β → Option (CorStage ι α β)
  | .start => cb.map .start
  | .running rest => some (.running rest)
  | .returned => some .returned

/-- The current coroutine, and the stages of those that have one. -/
structure Transfers (ι α β : Type) where
  current : CorPtr ι
  stage : CorPtr ι → Option (CorStage ι α β)

namespace Transfers

def new (script : List (CorAction ι α β)) : Transfers ι α β where
  current := .main
  stage co := match co with
    | .main => some (.running script)
    | .cor _ => none

variable [DecidableEq ι]

/-- The coroutine `co` has come to `stage`. -/
def set (t : Transfers ι α β) (co : CorPtr ι) (stage : CorStage ι α β) : Transfers ι α β :=
  { t with stage := Function.update t.stage co (some stage) }

def exec (t : Transfers ι α β) : CorAction ι α β → Option (Transfers ι α β × Bool)
  | .step _ => some (t, true)
  | .yield =>
      match t.current with
      | .main => some (t, false)
      | .cor _ => some ({ t with current := .main }, true)
  | .resume co =>
      match t.current, co with
      | .main, some (.cor k) => (t.stage (.cor k)).map fun _ => ({ t with current := .cor k }, true)
      | _, _ => some (t, false)
  | .setCallBack .main _ => some (t, false)
  | .setCallBack (.cor k) cb =>
      match t.stage (.cor k) with
      | some (.running _) => some (t, false)
      | _ => some (t.set (.cor k) (.start cb), true)

def step (script : β → List (CorAction ι α β)) (t : Transfers ι α β) :
    Option (Transfers ι α β × CorEvent ι α β) :=
  match t.stage t.current with
  | some (.start cb) => some (t.set t.current (.running (script cb)), .entered t.current cb)
  | some (.running (a :: rest)) =>
      ((t.set t.current (.running rest)).exec a).map fun (t', ok) => (t', .did t.current a ok)
  | some (.running []) =>
      match t.current with
      | .main => none
      | .cor k => some ({ t.set (.cor k) .returned with current := .main }, .returned (.cor k))
  | some .returned | none => none

def machine (script : β → List (CorAction ι α β)) :
    Machine (Transfers ι α β) Unit (CorEvent ι α β) := ⟨fun t _ => t.step script⟩

end Transfers

namespace CorThread

variable [DecidableEq ι]

/-- Where the coroutine `co` goes on, now or when it is entered again. -/
def placeOf (s : CorThread ι α β) (co : CorPtr ι) : Option (CorPlace ι α β) :=
  if s.cpu.co = co then some s.cpu.place else (s.cors co).coctx.map Coctx.place

/-- The stage of the coroutine `co`. -/
def stageOf (s : CorThread ι α β) (co : CorPtr ι) : Option (CorStage ι α β) :=
  (s.placeOf co).bind fun place => place.stage (s.cors co).callBack

def transfers (s : CorThread ι α β) : Transfers ι α β := ⟨s.cpu.co, s.stageOf⟩

/-- The pointer and the flags tell the truth about the places. -/
structure Sound (s : CorThread ι α β) : Prop where
  tCur_eq : s.tCur = s.cpu.co
  canResume : ∀ co, (s.cors co).canResume = true
  coctx_co : ∀ co c, (s.cors co).coctx = some c → c.co = co
  main : ∃ rest, s.placeOf .main = some (.running rest)
  isInCoFunc : ∀ k, (s.cors (.cor k)).isInCoFunc = true ↔
    ∃ rest, s.placeOf (.cor k) = some (.running rest)
  callBack : ∀ k, s.placeOf (.cor k) = some .start → ∃ cb, (s.cors (.cor k)).callBack = some cb

section Place

variable {s : CorThread ι α β} {co co' : CorPtr ι}

theorem placeOf_cpu (s : CorThread ι α β) : s.placeOf s.cpu.co = some s.cpu.place := if_pos rfl

theorem placeOf_here (place : CorPlace ι α β) :
    ({ s with cpu := ⟨s.cpu.co, place⟩ } : CorThread ι α β).placeOf =
      Function.update s.placeOf s.cpu.co (some place) := by
  funext co
  by_cases hco : co = s.cpu.co
  · subst hco
    simp [placeOf]
  · rw [Function.update_of_ne hco, placeOf, placeOf, if_neg (Ne.symm hco), if_neg (Ne.symm hco)]

/-- The context that runs has been stored, and `c` goes on as the coroutine `co`. -/
def swapped (s : CorThread ι α β) (co : CorPtr ι) (c : Coctx ι α β) : CorThread ι α β :=
  { s.set s.cpu.co { s.cors s.cpu.co with coctx := some s.cpu } with tCur := co, cpu := c }

theorem placeOf_swapped {c : Coctx ι α β} (hne : s.cpu.co ≠ co) (hc : (s.cors co).coctx = some c)
    (hco : c.co = co) : (s.swapped co c).placeOf = s.placeOf := by
  funext x
  by_cases hx : x = s.cpu.co
  · subst hx
    simp [swapped, placeOf, hco, Ne.symm hne]
  · by_cases hx' : x = co
    · subst hx'
      simp [swapped, placeOf, hco, hne, hc]
    · simp [swapped, placeOf, hco, hx, Ne.symm hx, Ne.symm hx']

end Place

section Simulation

variable {s s' : CorThread ι α β} {script : β → List (CorAction ι α β)} {k : ι} {co : CorPtr ι}

theorem stageOf_eq_of_placeOf (hplace : s'.placeOf = s.placeOf)
    (hcb : ∀ co, (s'.cors co).callBack = (s.cors co).callBack) : s'.stageOf = s.stageOf := by
  funext co
  rw [stageOf, stageOf, hplace, hcb]

theorem stageOf_eq_update {place : CorPlace ι α β} (stage : CorStage ι α β)
    (hplace : s'.placeOf = Function.update s.placeOf co (some place))
    (hcb : ∀ x, x ≠ co → (s'.cors x).callBack = (s.cors x).callBack)
    (hstage : place.stage (s'.cors co).callBack = some stage) :
    s'.stageOf = Function.update s.stageOf co (some stage) := by
  funext x
  by_cases hx : x = co
  · subst hx
    rw [Function.update_self, stageOf, hplace, Function.update_self, Option.bind_some, hstage]
  · rw [Function.update_of_ne hx, stageOf, stageOf, hplace, Function.update_of_ne hx, hcb x hx]

theorem Sound.update {place : CorPlace ι α β} (h : s.Sound) (htCur : s'.tCur = s'.cpu.co)
    (hplaces : s'.placeOf = Function.update s.placeOf co (some place))
    (hcors : ∀ x, x ≠ co → s'.cors x = s.cors x) (hresume : (s'.cors co).canResume = true)
    (hctx : ∀ c, (s'.cors co).coctx = some c → c.co = co)
    (hmain : co = .main → ∃ rest, place = .running rest)
    (hflag : co ≠ .main → ((s'.cors co).isInCoFunc = true ↔ ∃ rest, place = .running rest))
    (hcb : place = .start → ∃ cb, (s'.cors co).callBack = some cb) : s'.Sound := by
  refine ⟨htCur, fun x => ?_, fun x c hc => ?_, ?_, fun k => ?_, fun k hstart => ?_⟩
  · by_cases hx : x = co
    · rw [hx, hresume]
    · rw [hcors x hx]
      exact h.canResume x
  · by_cases hx : x = co
    · subst hx
      exact hctx c hc
    · rw [hcors x hx] at hc
      exact h.coctx_co x c hc
  · rw [hplaces]
    by_cases hco : CorPtr.main = co
    · rw [hco, Function.update_self]
      exact (hmain hco.symm).imp fun rest hrest => congrArg some hrest
    · rw [Function.update_of_ne hco]
      exact h.main
  · rw [hplaces]
    by_cases hk : CorPtr.cor k = co
    · rw [hk, Function.update_self, hflag (by rw [← hk]; nofun)]
      exact exists_congr fun rest => Option.some_inj.symm
    · rw [Function.update_of_ne hk, hcors _ hk]
      exact h.isInCoFunc k
  · rw [hplaces] at hstart
    by_cases hk : CorPtr.cor k = co
    · rw [hk, Function.update_self] at hstart
      rw [hk]
      exact hcb (Option.some.inj hstart)
    · rw [Function.update_of_ne hk] at hstart
      rw [hcors _ hk]
      exact h.callBack k hstart

theorem Sound.advance {rest : List (CorAction ι α β)} (h : s.Sound)
    (rest' : List (CorAction ι α β)) (hplace : s.cpu.place = .running rest) :
    Sound { s with cpu := ⟨s.cpu.co, .running rest'⟩ } ∧
      transfers { s with cpu := ⟨s.cpu.co, .running rest'⟩ } =
        s.transfers.set s.cpu.co (.running rest') := by
  have hplaces := placeOf_here (s := s) (.running rest')
  have hold : s.placeOf s.cpu.co = some (.running rest) := by rw [placeOf_cpu, hplace]
  constructor
  · refine h.update h.tCur_eq hplaces (fun _ _ => rfl) (h.canResume _) (h.coctx_co _)
      (fun _ => ⟨rest', rfl⟩) (fun hne => ?_) nofun
    refine iff_of_true ?_ ⟨rest', rfl⟩
    cases hco : s.cpu.co with
    | main => exact absurd hco hne
    | cor k => exact (h.isInCoFunc k).2 ⟨rest, hco ▸ hold⟩
  · rw [transfers, stageOf_eq_update _ hplaces (fun _ _ => rfl) rfl]
    rfl

theorem Sound.swapped {c : Coctx ι α β} (h : s.Sound) (hne : s.cpu.co ≠ co)
    (hc : (s.cors co).coctx = some c) :
    (s.swapped co c).Sound ∧ (s.swapped co c).transfers = { s.transfers with current := co } := by
  have hco := h.coctx_co co c hc
  have hplaces := placeOf_swapped hne hc hco
  have hkeep : ∀ x, ((s.swapped co c).cors x).callBack = (s.cors x).callBack ∧
      ((s.swapped co c).cors x).isInCoFunc = (s.cors x).isInCoFunc ∧
      ((s.swapped co c).cors x).canResume = (s.cors x).canResume := by
    intro x
    by_cases hx : x = s.cpu.co
    · subst hx
      simp [CorThread.swapped]
    · simp [CorThread.swapped, hx]
  refine ⟨⟨hco.symm, fun x => (hkeep x).2.2.trans (h.canResume x), fun x c' hc' => ?_, ?_,
    fun k => ?_, fun k hstart => ?_⟩, ?_⟩
  · by_cases hx : x = s.cpu.co
    · subst hx
      have heq : s.cpu = c' := by simpa [CorThread.swapped] using hc'
      rw [← heq]
    · exact h.coctx_co x c' (by simpa [CorThread.swapped, hx] using hc')
  · rw [hplaces]
    exact h.main
  · rw [hplaces, (hkeep _).2.1]
    exact h.isInCoFunc k
  · rw [hplaces] at hstart
    rw [(hkeep _).1]
    exact h.callBack k hstart
  · rw [transfers, stageOf_eq_of_placeOf hplaces fun x => (hkeep x).1]
    exact congrArg (Transfers.mk · s.stageOf) hco

theorem stageOf_eq_running_iff {rest : List (CorAction ι α β)} :
    s.stageOf co = some (.running rest) ↔ s.placeOf co = some (.running rest) := by
  rw [stageOf, Option.bind_eq_some_iff]
  constructor
  · rintro ⟨place, hplace, hstage⟩
    cases place with
    | start =>
        rcases Option.map_eq_some_iff.1 hstage with ⟨_, _, heq⟩
        cases heq
    | running rest' =>
        cases hstage
        exact hplace
    | returned => cases hstage
  · intro hplace
    exact ⟨_, hplace, rfl⟩

theorem Sound.setCallBack_refused {rest : List (CorAction ι α β)} (h : s.Sound)
    (hstage : s.stageOf (.cor k) = some (.running rest)) (cb : β) :
    s.setCallBack (.cor k) cb = (s, false) := by
  have hin := (h.isInCoFunc k).2 ⟨rest, stageOf_eq_running_iff.1 hstage⟩
  rw [CorThread.setCallBack, if_neg nofun, if_pos hin]

theorem Sound.setCallBack (h : s.Sound) (cb : β)
    (hplace : ∃ rest, s.cpu.place = .running rest)
    (hfree : ∀ rest, s.stageOf (.cor k) ≠ some (.running rest)) :
    ∃ s', s.setCallBack (.cor k) cb = (s', true) ∧ s'.cpu = s.cpu ∧ s'.Sound ∧
      s'.transfers = s.transfers.set (.cor k) (.start cb) := by
  have hin : (s.cors (.cor k)).isInCoFunc = false := by
    by_contra hin
    obtain ⟨rest, hrest⟩ := (h.isInCoFunc k).1 (by simpa using hin)
    exact hfree rest (stageOf_eq_running_iff.2 hrest)
  have hne : CorPtr.cor k ≠ s.cpu.co := by
    rintro heq
    obtain ⟨rest, hplace⟩ := hplace
    exact hfree rest (stageOf_eq_running_iff.2 (by rw [heq, placeOf_cpu, hplace]))
  let s' := s.set (.cor k) { s.cors (.cor k) with
    callBack := some cb, coctx := some ⟨.cor k, .start⟩, canResume := true }
  refine ⟨s', by rw [CorThread.setCallBack, if_neg nofun, hin]; rfl, rfl, ?_⟩
  have hplaces : s'.placeOf = Function.update s.placeOf (.cor k) (some .start) := by
    funext x
    by_cases hx : x = .cor k
    · subst hx
      simp [s', placeOf, Ne.symm hne]
    · simp [s', placeOf, hx]
  constructor
  · refine h.update h.tCur_eq hplaces (fun x hx => by simp [s', hx]) (by simp [s'])
      (fun c hc => ?_) nofun (fun _ => by simp [s', hin]) (fun _ => by simp [s'])
    have heq : (⟨.cor k, .start⟩ : Coctx ι α β) = c := by simpa [s'] using hc
    rw [← heq]
  · rw [transfers, stageOf_eq_update (.start cb) hplaces (fun x hx => by simp [s', hx])
      (by simp [s', CorPlace.stage])]
    rfl

theorem Sound.coctx_main {rest : List (CorAction ι α β)} (h : s.Sound) (hne : s.cpu.co ≠ .main)
    (hmain : s.placeOf .main = some (.running rest)) :
    (s.cors .main).coctx = some ⟨.main, .running rest⟩ := by
  rw [placeOf, if_neg hne] at hmain
  rcases Option.map_eq_some_iff.1 hmain with ⟨c, hc, hplace⟩
  rw [hc, ← hplace, ← h.coctx_co .main c hc]

theorem coctxSwap_eq (hne : s.cpu.co ≠ co) :
    ({ s with tCur := co } : CorThread ι α β).coctxSwap s.cpu.co co s.cpu =
      (s.cors co).coctx.map (s.swapped co) := by
  simp only [coctxSwap, cors_set, Function.update_of_ne (Ne.symm hne)]
  rfl

theorem Sound.isSome_stageOf (h : s.Sound) {c : Coctx ι α β} (hne : s.cpu.co ≠ .cor k)
    (hc : (s.cors (.cor k)).coctx = some c) : (s.stageOf (.cor k)).isSome := by
  have hplace : s.placeOf (.cor k) = some c.place := by rw [placeOf, if_neg hne, hc]; rfl
  rw [stageOf, hplace, Option.bind_some]
  cases hstart : c.place with
  | start =>
      obtain ⟨cb, hcb⟩ := h.callBack k (hplace.trans (congrArg some hstart))
      rw [hcb]
      rfl
  | running rest => rfl
  | returned => rfl

/-- `Yield` passes to the main context, unless this is what runs. -/
theorem Sound.yield {ok : Bool} (h : s.Sound) (hyield : s.yield s.cpu = some (s', ok)) :
    s'.Sound ∧ s.transfers.exec .yield = some (s'.transfers, ok) := by
  rw [CorThread.yield] at hyield
  split_ifs at hyield with hcur
  · cases hyield
    refine ⟨h, ?_⟩
    have hco : s.transfers.current = .main := h.tCur_eq.symm.trans hcur
    simp only [Transfers.exec, hco]
  · rw [h.tCur_eq] at hcur hyield
    dsimp only at hyield
    rw [coctxSwap_eq hcur] at hyield
    obtain ⟨rest, hmain⟩ := h.main
    have hc := h.coctx_main hcur hmain
    rw [hc] at hyield
    cases hyield
    obtain ⟨hsound, htransfers⟩ := h.swapped hcur hc
    refine ⟨hsound, ?_⟩
    rw [htransfers]
    cases hco : s.cpu.co with
    | main => exact absurd hco hcur
    | cor k =>
        have hcurrent : s.transfers.current = .cor k := hco
        simp only [Transfers.exec, hcurrent]

/-- `Resume` passes from the main context to another coroutine, and does nothing
otherwise. -/
theorem Sound.resume {co : Option (CorPtr ι)} {ok : Bool} (h : s.Sound)
    (hresume : s.resume co s.cpu = some (s', ok)) :
    s'.Sound ∧ s.transfers.exec (.resume co) = some (s'.transfers, ok) := by
  simp only [CorThread.resume] at hresume
  split_ifs at hresume with hcur
  · cases hresume
    refine ⟨h, ?_⟩
    rw [h.tCur_eq] at hcur
    cases hco : s.cpu.co with
    | main => exact absurd hco hcur
    | cor k =>
        have hcurrent : s.transfers.current = .cor k := hco
        simp only [Transfers.exec, hcurrent]
  · have hco : s.cpu.co = .main := h.tCur_eq.symm.trans (not_not.1 hcur)
    have hcurrent : s.transfers.current = .main := hco
    cases co with
    | none =>
        cases hresume
        refine ⟨h, ?_⟩
        simp only [Transfers.exec, hcurrent]
    | some co =>
        simp only [h.canResume co, Bool.not_true, Bool.false_eq_true, if_false] at hresume
        cases co with
        | main =>
            rw [if_pos (not_not.1 hcur)] at hresume
            cases hresume
            refine ⟨h, ?_⟩
            simp only [Transfers.exec, hcurrent]
        | cor k =>
            have hne : s.cpu.co ≠ .cor k := by
              rw [hco]
              nofun
            rw [if_neg (by rw [h.tCur_eq]; exact hne), ← hco, coctxSwap_eq hne] at hresume
            rcases Option.map_eq_some_iff.1 hresume with ⟨t, ht, heq⟩
            rcases Option.map_eq_some_iff.1 ht with ⟨c, hc, rfl⟩
            cases heq
            obtain ⟨hsound, htransfers⟩ := h.swapped hne hc
            refine ⟨hsound, ?_⟩
            rcases Option.isSome_iff_exists.1 (h.isSome_stageOf hne hc) with ⟨stage, hstage⟩
            have hstage' : s.transfers.stage (.cor k) = some stage := hstage
            simp only [Transfers.exec, hcurrent, hstage', htransfers]
            rfl

/-- The actions do to the stages what `Transfers.exec` says. -/
theorem Sound.exec {a : CorAction ι α β} {ok : Bool} (h : s.Sound)
    (hplace : ∃ rest, s.cpu.place = .running rest) (hexec : s.exec s.cpu a = some (s', ok)) :
    s'.Sound ∧ s.transfers.exec a = some (s'.transfers, ok) := by
  cases a with
  | step a =>
      cases hexec
      exact ⟨h, rfl⟩
  | yield => exact h.yield hexec
  | resume co => exact h.resume hexec
  | setCallBack co cb =>
      cases co with
      | main =>
          cases hexec
          exact ⟨h, rfl⟩
      | cor k =>
          by_cases hrunning : ∃ rest, s.stageOf (.cor k) = some (.running rest)
          · obtain ⟨rest, hstage⟩ := hrunning
            have hstage' : s.transfers.stage (.cor k) = some (.running rest) := hstage
            rw [CorThread.exec, h.setCallBack_refused hstage] at hexec
            cases hexec
            refine ⟨h, ?_⟩
            simp only [Transfers.exec, hstage']
          · push Not at hrunning
            obtain ⟨t, hset, hcpu, hsound, htransfers⟩ := h.setCallBack cb hplace hrunning
            rw [CorThread.exec, hset, ← hcpu] at hexec
            cases hexec
            refine ⟨hsound, ?_⟩
            simp only [Transfers.exec]
            rw [htransfers]
            split
            · next rest hrest => exact absurd hrest (hrunning rest)
            · rfl

theorem exec_here (here : Coctx ι α β) (a : CorAction ι α β) :
    s.exec here a = ({ s with cpu := here } : CorThread ι α β).exec here a := by
  cases a with
  | setCallBack co cb =>
      simp only [CorThread.exec, CorThread.setCallBack]
      split_ifs <;> rfl
  | step a => rfl
  | yield => rfl
  | resume co => rfl

/-- Entering `CoFunction` and leaving it sets the flag of the coroutine. -/
theorem Sound.setIsInCoFunc {stage : CorStage ι α β} (h : s.Sound)
    (hco : s.cpu.co = .cor k) (v : Bool) (place : CorPlace ι α β)
    (hv : v = true ↔ ∃ rest, place = .running rest) (hstage : place.stage none = some stage) :
    let s' : CorThread ι α β :=
      { s.set (.cor k) { s.cors (.cor k) with isInCoFunc := v } with cpu := ⟨.cor k, place⟩ }
    s'.Sound ∧ s'.transfers = s.transfers.set (.cor k) stage := by
  intro s'
  have hplaces : s'.placeOf = Function.update s.placeOf (.cor k) (some place) := by
    funext x
    by_cases hx : x = .cor k
    · subst hx
      simp [s', placeOf]
    · simp [s', placeOf, hx, Ne.symm hx, hco]
  have hnostart : ∀ cb : Option β, place.stage cb = some stage ∧ place ≠ .start := by
    cases place with
    | start => cases hstage
    | running rest => exact fun _ => ⟨hstage, nofun⟩
    | returned => exact fun _ => ⟨hstage, nofun⟩
  constructor
  · refine h.update (h.tCur_eq.trans hco) hplaces (fun x hx => by simp [s', hx]) ?_
      (fun c hc => ?_) nofun (fun _ => ?_) (fun hstart => absurd hstart (hnostart none).2)
    · simpa [s'] using h.canResume (.cor k)
    · exact h.coctx_co _ c (by simpa [s'] using hc)
    · simpa [s'] using hv
  · rw [transfers, stageOf_eq_update _ hplaces (fun x hx => by simp [s', hx]) (hnostart _).1]
    simp only [s', transfers, Transfers.set, hco]

theorem Sound.step {e : CorEvent ι α β} (h : s.Sound) (hstep : s.step script = some (s', e)) :
    s'.Sound ∧ s.transfers.step script = some (s'.transfers, e) := by
  have hcurrent : s.transfers.stage s.transfers.current =
      s.cpu.place.stage (s.cors s.cpu.co).callBack := by
    simp only [transfers, stageOf, placeOf_cpu, Option.bind_some]
  have hmain := h.main
  unfold Transfers.step
  rw [hcurrent]
  obtain ⟨tCur, ⟨co, place⟩, cors⟩ := s
  cases place with
  | start =>
      rcases Option.map_eq_some_iff.1 hstep with ⟨cb, hcb, heq⟩
      cases heq
      cases co with
      | main =>
          obtain ⟨rest, hrest⟩ := hmain
          rw [placeOf, if_pos rfl] at hrest
          cases hrest
      | cor k =>
          obtain ⟨hsound, htransfers⟩ := h.setIsInCoFunc rfl true (.running (script cb))
            (by simp) rfl
          refine ⟨hsound, ?_⟩
          dsimp only at hcb
          rw [hcb]
          exact congrArg (fun t => some (t, CorEvent.entered _ cb)) htransfers.symm
  | running rest =>
      cases rest with
      | nil =>
          cases co with
          | main => cases hstep
          | cor k =>
              rcases Option.map_eq_some_iff.1 hstep with ⟨⟨t, ok⟩, hyield, heq⟩
              cases heq
              obtain ⟨hsound, htransfers⟩ := h.setIsInCoFunc rfl false .returned
                (by simp) rfl
              obtain ⟨hsound', htransfers'⟩ := hsound.yield hyield
              refine ⟨hsound', ?_⟩
              rw [htransfers] at htransfers'
              exact congrArg (fun t => some (t, CorEvent.returned _))
                (congrArg Prod.fst (Option.some.inj htransfers'))
      | cons a rest =>
          rcases Option.map_eq_some_iff.1 hstep with ⟨⟨t, ok⟩, hexec, heq⟩
          cases heq
          obtain ⟨hsound, htransfers⟩ := h.advance rest rfl
          rw [exec_here] at hexec
          obtain ⟨hsound', htransfers'⟩ := hsound.exec ⟨rest, rfl⟩ hexec
          rw [htransfers] at htransfers'
          refine ⟨hsound', ?_⟩
          exact Option.map_eq_some_iff.2 ⟨_, htransfers', rfl⟩
  | returned => cases hstep

theorem sound_new (main : List (CorAction ι α β)) : (new main).Sound where
  tCur_eq := rfl
  canResume _ := rfl
  coctx_co _ _ hc := by cases hc
  main := ⟨main, rfl⟩
  isInCoFunc k := by simp [new, placeOf]
  callBack k hstart := by simp [new, placeOf] at hstart

theorem transfers_new (main : List (CorAction ι α β)) :
    (new main).transfers = .new main := by
  refine congrArg (Transfers.mk .main) (funext fun co => ?_)
  cases co <;> rfl

theorem refines_transfers (script : β → List (CorAction ι α β)) :
    Machine.Refines (machine script) (Transfers.machine script)
      fun s t => s.Sound ∧ t = s.transfers := by
  rintro s t _ s' e ⟨hs, rfl⟩ hstep
  obtain ⟨hs', ht'⟩ := hs.step hstep
  exact ⟨s'.transfers, ht', hs', rfl⟩

end Simulation

end CorThread

end Rocket
