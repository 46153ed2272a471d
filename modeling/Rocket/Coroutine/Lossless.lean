import Rocket.Coroutine.Transfer

/-!
# No action is lost

What a thread has executed, told by the events of its run: the actions of each
coroutine are those of the callbacks that it has entered, in the order of their
scripts, and what is left of the last one. The main context is left right behind the
`Resume` by which the current coroutine has been entered.
-/

namespace Rocket

open Foundation

variable {ι α β : Type} [DecidableEq ι]

namespace CorEvent

/-- The action of `co` that is executed. -/
def actions (co : CorPtr ι) : CorEvent ι α β → List (CorAction ι α β)
  | .did co' a _ => if co' = co then [a] else []
  | .entered _ _ | .returned _ => []

/-- The callback that `co` enters. -/
def entries (co : CorPtr ι) : CorEvent ι α β → List β
  | .entered co' cb => if co' = co then [cb] else []
  | .did _ _ _ | .returned _ => []

/-- The callback that is set on `co`. -/
def callBacks (co : CorPtr ι) : CorEvent ι α β → List β
  | .did _ (.setCallBack co' cb) true => if co' = co then [cb] else []
  | _ => []

end CorEvent

def restOf (stage : Option (CorStage ι α β)) : List (CorAction ι α β) :=
  (stage.map CorStage.rest).getD []

def pendingOf : Option (CorStage ι α β) → List β
  | some (.start cb) => [cb]
  | _ => []

section Stage

omit [DecidableEq ι]

@[simp] theorem restOf_running (rest : List (CorAction ι α β)) :
    restOf (some (.running rest)) = rest := rfl

@[simp] theorem restOf_start (cb : β) : restOf (some (.start cb) : Option (CorStage ι α β)) = [] :=
  rfl

@[simp] theorem restOf_returned : restOf (some .returned : Option (CorStage ι α β)) = [] := rfl

@[simp] theorem pendingOf_running (rest : List (CorAction ι α β)) :
    pendingOf (some (.running rest)) = [] := rfl

@[simp] theorem pendingOf_start (cb : β) :
    pendingOf (some (.start cb) : Option (CorStage ι α β)) = [cb] := rfl

@[simp] theorem pendingOf_returned : pendingOf (some .returned : Option (CorStage ι α β)) = [] :=
  rfl

end Stage

namespace Transfers

variable {script : β → List (CorAction ι α β)} {main : List (CorAction ι α β)}
  {t t' : Transfers ι α β} {events : List (CorEvent ι α β)} {e : CorEvent ι α β} {k : ι}

/-- The actions of a coroutine and what is left are the scripts of the callbacks that it
has entered, each of which has been set on it before. -/
structure KeepsCor (script : β → List (CorAction ι α β)) (events : List (CorEvent ι α β)) (k : ι)
    (stage : Option (CorStage ι α β)) : Prop where
  actions : events.flatMap (CorEvent.actions (.cor k)) ++ restOf stage =
    (events.flatMap (CorEvent.entries (.cor k))).flatMap script
  entries : (events.flatMap (CorEvent.entries (.cor k)) ++ pendingOf stage).Sublist
    (events.flatMap (CorEvent.callBacks (.cor k)))

/-- What a run has executed. -/
structure Keeps (script : β → List (CorAction ι α β)) (main : List (CorAction ι α β))
    (events : List (CorEvent ι α β)) (t : Transfers ι α β) : Prop where
  main : ∃ rest, t.stage .main = some (.running rest) ∧
    events.flatMap (CorEvent.actions .main) ++ rest = main
  cor : ∀ k, KeepsCor script events k (t.stage (.cor k))
  resumed : ∀ k, t.current = .cor k →
    ∃ acts, events.flatMap (CorEvent.actions .main) = acts ++ [.resume (some (.cor k))]

theorem keeps_new (script : β → List (CorAction ι α β)) (main : List (CorAction ι α β)) :
    Keeps script main [] (new main) where
  main := ⟨main, rfl, rfl⟩
  cor _ := ⟨rfl, List.Sublist.refl _⟩
  resumed _ hcur := by cases hcur

theorem KeepsCor.append {stage : Option (CorStage ι α β)} (h : KeepsCor script events k stage)
    (hactions : e.actions (.cor k) = []) (hentries : e.entries (.cor k) = []) :
    KeepsCor script (events ++ [e]) k stage := by
  refine ⟨?_, ?_⟩
  · simpa [List.flatMap_append, hactions, hentries] using h.actions
  · simp only [List.flatMap_append, List.flatMap_singleton, hentries, List.append_nil]
    exact h.entries.trans (List.sublist_append_left _ _)

theorem KeepsCor.did {a : CorAction ι α β} {rest : List (CorAction ι α β)} {ok : Bool}
    (h : KeepsCor script events k (some (.running (a :: rest)))) :
    KeepsCor script (events ++ [.did (.cor k) a ok]) k (some (.running rest)) := by
  have hactions : (CorEvent.did (.cor k) a ok : CorEvent ι α β).actions (.cor k) = [a] := if_pos rfl
  refine ⟨?_, ?_⟩
  · rw [List.flatMap_append, List.flatMap_append, List.flatMap_singleton, List.flatMap_singleton,
      hactions, List.append_assoc]
    simpa [CorEvent.entries] using h.actions
  · simp only [List.flatMap_append, List.flatMap_singleton, CorEvent.entries, List.append_nil]
    exact h.entries.trans (List.sublist_append_left _ _)

theorem KeepsCor.setCallBack {stage : Option (CorStage ι α β)} {co : CorPtr ι} {cb : β}
    (h : KeepsCor script events k stage) (hco : co ≠ .cor k)
    (hfree : ∀ rest, stage ≠ some (.running rest)) :
    KeepsCor script (events ++ [.did co (.setCallBack (.cor k) cb) true]) k (some (.start cb)) := by
  have hrest : restOf stage = [] := by
    match stage with
    | none | some (.start _) | some .returned => rfl
    | some (.running rest) => exact absurd rfl (hfree rest)
  refine ⟨?_, ?_⟩
  · have hactions := h.actions
    rw [hrest] at hactions
    simpa [List.flatMap_append, CorEvent.actions, CorEvent.entries, hco] using hactions
  · have hentries := (List.sublist_append_left _ _).trans h.entries
    simp only [List.flatMap_append, List.flatMap_singleton, CorEvent.entries, List.append_nil,
      CorEvent.callBacks, if_true, pendingOf_start]
    exact hentries.append (List.Sublist.refl _)

theorem KeepsCor.entered {cb : β} (h : KeepsCor script events k (some (.start cb))) :
    KeepsCor script (events ++ [.entered (.cor k) cb]) k (some (.running (script cb))) := by
  refine ⟨?_, ?_⟩
  · have hactions := h.actions
    simp only [List.flatMap_append, List.flatMap_singleton, CorEvent.actions, CorEvent.entries,
      if_true, ← hactions]
    simp [restOf, CorStage.rest]
  · simpa [List.flatMap_append, CorEvent.entries, CorEvent.callBacks] using h.entries

/-- An action sets at most one stage, that of a coroutine that is not in its callback,
and passes to another coroutine only by `Yield` and `Resume`. -/
theorem exec_cases {a : CorAction ι α β} {ok : Bool} (hexec : t.exec a = some (t', ok)) :
    (∀ co, t'.stage co = t.stage co ∨ ∃ k cb, co = .cor k ∧ a = .setCallBack (.cor k) cb ∧
      ok = true ∧ (∀ rest, t.stage co ≠ some (.running rest)) ∧ t'.stage co = some (.start cb)) ∧
    (t'.current = t.current ∨ t'.current = .main ∨
      ∃ k, a = .resume (some (.cor k)) ∧ t.current = .main ∧ t'.current = .cor k) := by
  cases a with
  | step a =>
      cases hexec
      exact ⟨fun _ => Or.inl rfl, Or.inl rfl⟩
  | yield =>
      simp only [exec] at hexec
      split at hexec
      · cases hexec
        exact ⟨fun _ => Or.inl rfl, Or.inl rfl⟩
      · cases hexec
        exact ⟨fun _ => Or.inl rfl, Or.inr (Or.inl rfl)⟩
  | resume co =>
      simp only [exec] at hexec
      split at hexec
      · next k hcur =>
          rcases Option.map_eq_some_iff.1 hexec with ⟨_, _, heq⟩
          cases heq
          exact ⟨fun _ => Or.inl rfl, Or.inr (Or.inr ⟨k, rfl, hcur, rfl⟩)⟩
      · cases hexec
        exact ⟨fun _ => Or.inl rfl, Or.inl rfl⟩
  | setCallBack co cb =>
      cases co with
      | main =>
          cases hexec
          exact ⟨fun _ => Or.inl rfl, Or.inl rfl⟩
      | cor k =>
          simp only [exec] at hexec
          split at hexec
          · cases hexec
            exact ⟨fun _ => Or.inl rfl, Or.inl rfl⟩
          · next hfree =>
              cases hexec
              refine ⟨fun co => ?_, Or.inl rfl⟩
              by_cases hco : co = .cor k
              · subst hco
                exact Or.inr ⟨k, cb, rfl, rfl, rfl, hfree, by simp [set]⟩
              · exact Or.inl (by simp [set, hco])

theorem flatMap_actions_append {co : CorPtr ι} (h : e.actions co = []) :
    (events ++ [e]).flatMap (CorEvent.actions co) = events.flatMap (CorEvent.actions co) := by
  rw [List.flatMap_append, List.flatMap_singleton, h, List.append_nil]

theorem Keeps.entered {j : ι} {cb : β} (h : Keeps script main events t)
    (hcurrent : t.current = .cor j) (hstage : t.stage (.cor j) = some (.start cb)) :
    Keeps script main (events ++ [.entered (.cor j) cb])
      (t.set (.cor j) (.running (script cb))) := by
  have hmain : (CorEvent.entered (.cor j) cb : CorEvent ι α β).actions .main = [] := rfl
  obtain ⟨left, hleft, hacts⟩ := h.main
  refine ⟨⟨left, by simpa [set] using hleft, ?_⟩, fun k => ?_, fun k hk => ?_⟩
  · rw [flatMap_actions_append hmain]
    exact hacts
  · by_cases hk : k = j
    · subst hk
      have hcor := h.cor k
      rw [hstage] at hcor
      simpa [set] using hcor.entered
    · have hentries : (CorEvent.entered (.cor j) cb : CorEvent ι α β).entries (.cor k) = [] :=
        if_neg (by simpa using Ne.symm hk)
      simpa [set, hk] using (h.cor k).append rfl hentries
  · rw [flatMap_actions_append hmain]
    exact h.resumed k hk

theorem Keeps.returned {j : ι} (h : Keeps script main events t)
    (hstage : t.stage (.cor j) = some (.running [])) :
    Keeps script main (events ++ [.returned (.cor j)])
      { t.set (.cor j) .returned with current := .main } := by
  have hmain : (CorEvent.returned (.cor j) : CorEvent ι α β).actions .main = [] := rfl
  obtain ⟨left, hleft, hacts⟩ := h.main
  refine ⟨⟨left, by simpa [set] using hleft, ?_⟩, fun k => ?_, fun k hk => by cases hk⟩
  · rw [flatMap_actions_append hmain]
    exact hacts
  · have hcor := (h.cor k).append (e := .returned (.cor j)) rfl rfl
    by_cases hk : k = j
    · subst hk
      rw [hstage] at hcor
      refine ⟨?_, ?_⟩
      · simpa [set] using hcor.actions
      · simpa [set] using hcor.entries
    · simpa [set, hk] using hcor

theorem Keeps.did_main {a : CorAction ι α β} {rest : List (CorAction ι α β)} {ok : Bool}
    (h : Keeps script main events t) (hcurrent : t.current = .main)
    (hstage : t.stage .main = some (.running (a :: rest)))
    (hexec : (t.set .main (.running rest)).exec a = some (t', ok)) :
    Keeps script main (events ++ [.did .main a ok]) t' := by
  obtain ⟨hstages, hnext⟩ := exec_cases hexec
  have hactions : (CorEvent.did .main a ok : CorEvent ι α β).actions .main = [a] := by
    simp [CorEvent.actions]
  refine ⟨⟨rest, ?_, ?_⟩, fun k => ?_, fun k hk => ?_⟩
  · rcases hstages .main with heq | ⟨_, _, heq, _⟩
    · simpa [set] using heq
    · cases heq
  · obtain ⟨left, hleft, hacts⟩ := h.main
    cases hstage.symm.trans hleft
    rw [List.flatMap_append, List.flatMap_singleton, hactions, List.append_assoc]
    exact hacts
  · rcases hstages (.cor k) with heq | ⟨j, cb, hj, rfl, rfl, hfree, heq⟩
    · rw [heq]
      simpa [set] using (h.cor k).append (e := .did .main a ok) rfl rfl
    · cases hj
      rw [heq]
      exact (h.cor k).setCallBack (fun heq => by cases heq) (by simpa [set] using hfree)
  · rcases hnext with heq | heq | ⟨j, rfl, _, heq⟩
    · cases (heq.symm.trans hk).symm.trans hcurrent
    · cases heq.symm.trans hk
    · cases heq.symm.trans hk
      exact ⟨_, by rw [List.flatMap_append, List.flatMap_singleton, hactions]⟩

theorem Keeps.did_cor {j : ι} {a : CorAction ι α β} {rest : List (CorAction ι α β)} {ok : Bool}
    (h : Keeps script main events t) (hcurrent : t.current = .cor j)
    (hstage : t.stage (.cor j) = some (.running (a :: rest)))
    (hexec : (t.set (.cor j) (.running rest)).exec a = some (t', ok)) :
    Keeps script main (events ++ [.did (.cor j) a ok]) t' := by
  obtain ⟨hstages, hnext⟩ := exec_cases hexec
  have hmain : (CorEvent.did (.cor j) a ok : CorEvent ι α β).actions .main = [] := by
    simp [CorEvent.actions]
  obtain ⟨left, hleft, hacts⟩ := h.main
  refine ⟨⟨left, ?_, ?_⟩, fun k => ?_, fun k hk => ?_⟩
  · rcases hstages .main with heq | ⟨_, _, heq, _⟩
    · rw [heq]
      simpa [set] using hleft
    · cases heq
  · rw [flatMap_actions_append hmain]
    exact hacts
  · rcases hstages (.cor k) with heq | ⟨i, cb, hi, rfl, rfl, hfree, heq⟩
    · rw [heq]
      by_cases hk : k = j
      · subst hk
        have hcor := h.cor k
        rw [hstage] at hcor
        simpa [set] using hcor.did
      · have hother : (CorEvent.did (.cor j) a ok : CorEvent ι α β).actions (.cor k) = [] :=
          if_neg (by simpa using Ne.symm hk)
        simpa [set, hk] using (h.cor k).append hother rfl
    · cases hi
      -- a coroutine sets no callback on itself
      have hk : CorPtr.cor j ≠ .cor k := by
        rintro hk
        cases hk
        exact hfree rest (by simp [set])
      rw [heq]
      exact (h.cor k).setCallBack hk (by simpa [set, Ne.symm hk] using hfree)
  · rw [flatMap_actions_append hmain]
    rcases hnext with heq | heq | ⟨_, _, heq, _⟩
    · exact h.resumed k (heq.symm.trans hk)
    · cases heq.symm.trans hk
    · cases heq.symm.trans hcurrent

theorem Keeps.step (h : Keeps script main events t) (hstep : t.step script = some (t', e)) :
    Keeps script main (events ++ [e]) t' := by
  obtain ⟨left, hleft, _⟩ := h.main
  unfold Transfers.step at hstep
  split at hstep
  · next cb hstage =>
      cases hstep
      cases hcurrent : t.current with
      | main =>
          rw [hcurrent] at hstage
          cases hstage.symm.trans hleft
      | cor j =>
          rw [hcurrent] at hstage
          exact h.entered hcurrent hstage
  · next a rest hstage =>
      rcases Option.map_eq_some_iff.1 hstep with ⟨⟨u, ok⟩, hexec, heq⟩
      cases heq
      cases hcurrent : t.current with
      | main =>
          rw [hcurrent] at hstage hexec
          exact h.did_main hcurrent hstage hexec
      | cor j =>
          rw [hcurrent] at hstage hexec
          exact h.did_cor hcurrent hstage hexec
  · next hstage =>
      split at hstep
      · cases hstep
      · next j hcurrent =>
          cases hstep
          rw [hcurrent] at hstage
          exact h.returned hstage
  · cases hstep
  · cases hstep

end Transfers

namespace CorThread

variable {script : β → List (CorAction ι α β)} {main : List (CorAction ι α β)}
  {events : List (CorEvent ι α β)} {s s' : CorThread ι α β}

/-- The thread is back in the main context, right behind the `Resume` by which `k` has
been entered. -/
def Back (main : List (CorAction ι α β)) (events : List (CorEvent ι α β)) (k : ι)
    (s : CorThread ι α β) : Prop :=
  ∃ acts left, events.flatMap (CorEvent.actions .main) = acts ++ [.resume (some (.cor k))] ∧
    main = acts ++ .resume (some (.cor k)) :: left ∧ s.cpu = ⟨.main, .running left⟩

/-- What holds in a state of a thread that has executed `events`. -/
structure Lossless (script : β → List (CorAction ι α β)) (main : List (CorAction ι α β))
    (events : List (CorEvent ι α β)) (s : CorThread ι α β) : Prop where
  tCur_eq : s.tCur = s.cpu.co
  isMainCoroutine_iff : s.isMainCoroutine = true ↔ s.cpu.co = .main
  resume_main : ∀ co rest s' e, s.cpu = ⟨.main, .running (.resume co :: rest)⟩ →
    s.step script = some (s', e) →
      (∃ k, co = some (.cor k) ∧
        s'.transfers = { s.transfers.set .main (.running rest) with current := .cor k }) ∨
      ((co = none ∨ co = some .main) ∧ s' = { s with cpu := ⟨.main, .running rest⟩ })
  resume_cor : ∀ k co rest, s.cpu = ⟨.cor k, .running (.resume co :: rest)⟩ →
    s.step script =
      some ({ s with cpu := ⟨.cor k, .running rest⟩ }, .did (.cor k) (.resume co) false)
  yield_main : ∀ rest, s.cpu = ⟨.main, .running (.yield :: rest)⟩ →
    s.step script = some ({ s with cpu := ⟨.main, .running rest⟩ }, .did .main .yield false)
  yield_cor : ∀ k rest, s.cpu = ⟨.cor k, .running (.yield :: rest)⟩ →
    ∃ s', s.step script = some (s', .did (.cor k) .yield true) ∧ s'.Back main events k
  returned : ∀ k, s.cpu = ⟨.cor k, .running []⟩ →
    ∃ s', s.step script = some (s', .returned (.cor k)) ∧ s'.Back main events k
  actions_main : events.flatMap (CorEvent.actions .main) ++ restOf (s.stageOf .main) = main
  actions_cor : ∀ k, events.flatMap (CorEvent.actions (.cor k)) ++ restOf (s.stageOf (.cor k)) =
    (events.flatMap (CorEvent.entries (.cor k))).flatMap script
  entries : ∀ k, (events.flatMap (CorEvent.entries (.cor k))).Sublist
    (events.flatMap (CorEvent.callBacks (.cor k)))
  setCallBack_refused : ∀ k rest cb, s.stageOf (.cor k) = some (.running rest) →
    s.setCallBack (.cor k) cb = (s, false)

/-- Leaving a coroutine leads back behind the `Resume` that has entered it. -/
theorem Sound.back {c : Coctx ι α β} {k : ι} (h : s.Sound)
    (hkeeps : s.transfers.Keeps script main events) (hco : s.cpu.co = .cor k)
    (hc : (s.cors .main).coctx = some c) (hcpu : s'.cpu = c) : s'.Back main events k := by
  obtain ⟨left, hmain, hacts⟩ := hkeeps.main
  obtain ⟨acts, hresumed⟩ := hkeeps.resumed k hco
  have hne : s.cpu.co ≠ .main := by
    rw [hco]
    nofun
  have hmain' := h.coctx_main hne (stageOf_eq_running_iff.1 hmain)
  refine ⟨acts, left, hresumed, ?_, ?_⟩
  · rw [← hacts, hresumed, List.append_assoc]
    rfl
  · rw [hcpu]
    exact Option.some.inj (hc.symm.trans hmain')

/-- `Yield` in a coroutine goes on at the context that is stored for the main one. -/
theorem yield_of_cor {c : Coctx ι α β} {k : ι} (hcur : s.tCur = .cor k)
    (hc : (s.cors .main).coctx = some c) (here : Coctx ι α β) :
    ∃ s', s.yield here = some (s', true) ∧ s'.cpu = c := by
  have hne : s.tCur ≠ .main := by
    rw [hcur]
    nofun
  refine ⟨{ s.set s.tCur { s.cors s.tCur with coctx := some here } with tCur := .main, cpu := c },
    ?_, rfl⟩
  rw [yield, if_neg hne]
  simp only [coctxSwap, cors_set, Function.update_of_ne (Ne.symm hne), hc, Option.map_some]
  rfl

/-- What a `Resume` of the main context does. -/
theorem Sound.resume_main {co : Option (CorPtr ι)} {rest : List (CorAction ι α β)}
    {e : CorEvent ι α β} (h : s.Sound) (hcpu : s.cpu = ⟨.main, .running (.resume co :: rest)⟩)
    (hstep : s.step script = some (s', e)) :
    (∃ k, co = some (.cor k) ∧
      s'.transfers = { s.transfers.set .main (.running rest) with current := .cor k }) ∨
    ((co = none ∨ co = some .main) ∧ s' = { s with cpu := ⟨.main, .running rest⟩ }) := by
  have htransfers := (h.step hstep).2
  have hcan := h.canResume .main
  obtain ⟨tCur, cpu, cors⟩ := s
  cases hcpu
  obtain rfl : tCur = .main := h.tCur_eq
  match co with
  | none =>
      cases hstep
      exact Or.inr ⟨Or.inl rfl, rfl⟩
  | some .main =>
      dsimp only at hcan
      simp only [CorThread.step, CorThread.exec, CorThread.resume, hcan, Bool.not_true,
        Bool.false_eq_true, ne_eq, not_true_eq_false, if_false, if_true, Option.map_some] at hstep
      cases hstep
      exact Or.inr ⟨Or.inr rfl, rfl⟩
  | some (.cor k) =>
      refine Or.inl ⟨k, rfl, ?_⟩
      rcases Option.map_eq_some_iff.1 htransfers with ⟨⟨t, ok⟩, hexec, heq⟩
      rcases Option.map_eq_some_iff.1 hexec with ⟨_, _, heq'⟩
      cases heq'
      exact (congrArg Prod.fst heq).symm

theorem Sound.lossless (h : s.Sound) (hkeeps : s.transfers.Keeps script main events) :
    s.Lossless script main events := by
  obtain ⟨left, hmain, hacts⟩ := hkeeps.main
  have hmain' : s.stageOf .main = some (.running left) := hmain
  refine ⟨h.tCur_eq, ?_, ?_, ?_, ?_, ?_, ?_, ?_, fun k => (hkeeps.cor k).actions, fun k => ?_,
    fun k rest cb hstage => h.setCallBack_refused hstage cb⟩
  · rw [isMainCoroutine, h.tCur_eq, decide_eq_true_iff]
  · intro co rest s' e hcpu hstep
    exact h.resume_main hcpu hstep
  · intro k co rest hcpu
    obtain ⟨tCur, cpu, cors⟩ := s
    cases hcpu
    obtain rfl : tCur = .cor k := h.tCur_eq
    rfl
  · intro rest hcpu
    obtain ⟨tCur, cpu, cors⟩ := s
    cases hcpu
    obtain rfl : tCur = .main := h.tCur_eq
    rfl
  · intro k rest hcpu
    have hco : s.cpu.co = .cor k := by rw [hcpu]
    have hc := h.coctx_main (by rw [hco]; nofun) (stageOf_eq_running_iff.1 hmain')
    obtain ⟨s', hyield, hback⟩ := yield_of_cor (h.tCur_eq.trans hco) hc ⟨.cor k, .running rest⟩
    refine ⟨s', ?_, h.back hkeeps hco hc hback⟩
    simp only [CorThread.step, hcpu, CorThread.exec, hyield, Option.map_some]
  · intro k hcpu
    have hco : s.cpu.co = .cor k := by rw [hcpu]
    have hc := h.coctx_main (by rw [hco]; nofun) (stageOf_eq_running_iff.1 hmain')
    obtain ⟨s', hyield, hback⟩ := yield_of_cor
      (s := s.set (.cor k) { s.cors (.cor k) with isInCoFunc := false })
      (h.tCur_eq.trans hco) (c := ⟨.main, .running left⟩) (by simpa using hc) ⟨.cor k, .returned⟩
    refine ⟨s', ?_, h.back hkeeps hco hc hback⟩
    simp only [CorThread.step, hcpu, reduceCtorEq, if_false, hyield, Option.map_some]
  · rw [hmain', restOf_running]
    exact hacts
  · exact (List.sublist_append_left _ _).trans (hkeeps.cor k).entries

/-- In every run of a thread, `t_cur_coroutine` names the context that is executed, only
the main context resumes and only the others yield, and every coroutine executes the
scripts of its callbacks without a gap. -/
theorem lossless_of_run {steps : List Unit}
    (hrun : (machine script).run (new main) steps = some (s, events)) :
    s.Lossless script main events := by
  obtain ⟨t, ht, hsound, rfl⟩ := (refines_transfers script).run
    (R := fun s t => s.Sound ∧ t = s.transfers) ⟨sound_new main, rfl⟩ hrun
  rw [transfers_new] at ht
  have hkeeps := Machine.run_history (I := fun t events => t.Keeps script main events)
    (fun _ _ _ _ _ hs hstep => hs.step hstep) (Transfers.keeps_new script main) ht
  exact hsound.lossless hkeeps

def testScript (cb : Fin 2) : List (CorAction (Fin 2) ℕ (Fin 2)) :=
  if cb = 0 then [.step 0, .yield, .step 1] else [.step 2, .yield]

def testMain : List (CorAction (Fin 2) ℕ (Fin 2)) :=
  [.step 3, .setCallBack (.cor 0) 0, .step 4, .resume (some (.cor 0)), .step 5,
    .resume (some (.cor 0)), .step 6, .setCallBack (.cor 1) 1, .resume (some (.cor 1)), .step 7]

/-- The test, to its end. -/
theorem lossless_of_run_test : ∃ s events,
    (machine testScript).run (new testMain) (List.replicate 18 ()) = some (s, events) ∧
      events.flatMap (CorEvent.actions (.cor 0)) = testScript 0 ∧
      s.Lossless testScript testMain events := by
  have hrun : ((machine testScript).run (new testMain) (List.replicate 18 ())).map
      (fun p => p.2.flatMap (CorEvent.actions (.cor 0))) = some (testScript 0) := by decide +kernel
  rcases Option.map_eq_some_iff.1 hrun with ⟨⟨s, events⟩, hrun, hactions⟩
  exact ⟨s, events, hrun, hactions, lossless_of_run hrun⟩

end CorThread

end Rocket
