import Rocket.Net.IOThreadStart

/-!
# The tasks of a thread that has not been started

The main thread gives the IO threads their first tasks between the constructor of the group
and `start`. The handshake makes sure that there is an event loop to give them to, and that
the loop does not run before `start`; the first round of the loop takes all of them.
-/

namespace Rocket

open Foundation Machine

namespace GroupRun

variable {α τ : Type} [DecidableEq τ] {ids : ℕ → ℕ} {s s' : GroupRun α τ} {op : GroupOp α τ}

/-- What a step does to the thread `i`: its loop is as it was, or it is made, or it takes a step,
which is one of its own only if the thread is in its loop. -/
inductive LoopStep (t t' : IOThreadMain α τ) : Prop
  | same (heq : t'.eventLoop = t.eventLoop) (hrank : t.place.rank ≤ t'.place.rank)
      (hreturned : t'.place = .returned → t.place = .returned ∨
        ∃ l, t.eventLoop = some l ∧ l.place = .exited)
  | made (hnone : t.eventLoop = none) (hnew : t'.eventLoop = some {})
      (hplace : t'.place = .made)
  | stepped (l l' : EventLoop α τ) (op : LoopOp α τ) (hl : t.eventLoop = some l)
      (hl' : t'.eventLoop = some l') (hstep : EventLoop.machine.step l op = some (l', ()))
      (hown : op.isOther = true ∨ t.place = .looping) (hplace : t'.place = t.place)

theorem Stepped.loopStep (h : Sound ids s) (hstep : Stepped ids s op s') (i : ℕ) :
    LoopStep (s.threads i) (s'.threads i) := by
  have hsame : LoopStep (s.threads i) (s.threads i) := .same rfl le_rfl Or.inl
  have hother {k : ℕ} {t : IOThreadMain α τ} (hk : LoopStep (s.threads k) t) :
      LoopStep (s.threads i) ((s.setThread k t).threads i) := by
    by_cases hi : i = k
    · subst hi
      simpa only [setThread, Function.update_self] using hk
    · simp only [setThread, Function.update_of_ne hi]
      exact hsame
  cases hstep with
  | create k hplace hlt =>
      have hrank := (h.threads k).created_iff
      have hloop := (h.threads k).eventLoop_iff
      simp only [created, hplace, lt_irrefl, false_iff, not_le, Nat.lt_one_iff] at hrank
      rw [hrank] at hloop
      refine hother (.same ?_ (by rw [hrank]; exact Nat.zero_le _) fun hreturned => ?_)
      · exact (Option.not_isSome_iff_eq_none.1 fun hsome => absurd (hloop.1 hsome) (by decide)).symm
      · cases hreturned
  | wait k | post k => exact hother (.same rfl le_rfl Or.inl)
  | constructed | start | started | join | joinThread | joined => exact hsame
  | thread k t hmain =>
      obtain ⟨hsound, hrank, hloop, hexited⟩ := (h.threads k).main hmain
      refine hother ?_
      by_cases hentered : (s.threads k).place = .entered
      · rw [if_pos hentered] at hloop
        have hnone := (h.threads k).eventLoop_iff
        rw [hentered] at hnone hrank
        refine .made (Option.not_isSome_iff_eq_none.1 fun hsome =>
          absurd (hnone.1 hsome) (by decide)) hloop ?_
        cases hplace : t.place <;> first | rfl | simp [hplace, MainPlace.rank] at hrank
      · rw [if_neg hentered] at hloop
        exact .same hloop (hrank ▸ Nat.le_succ _) fun hreturned => Or.inr (hexited hreturned)
  | loop k op t hguard hloop =>
      obtain ⟨l, hl, hbody⟩ := Option.bind_eq_some_iff.1 hloop
      obtain ⟨hown, hbody⟩ := Option.ite_none_right_eq_some.1 hbody
      obtain ⟨⟨l', out⟩, hstep, heq⟩ := Option.bind_eq_some_iff.1 hbody
      cases heq
      exact hother (.stepped l l' op hl rfl hstep hown rfl)

/-- The loop of a thread: it does nothing by itself before the thread has come to it, and it
has been stopped when the thread has returned. -/
structure Quiet (t : IOThreadMain α τ) (l : EventLoop α τ) : Prop where
  holds : ∃ q, EventLoop.Holds q l
  before : t.place.rank < 6 → l.place = .head ∧ l.taken = []
  returned : t.place = .returned → l.place = .exited
  stopped : l.place = .exited → l.stopFlag = true

theorem LoopStep.quiet {t t' : IOThreadMain α τ} (hstep : LoopStep t t')
    (h : ∀ l, t.eventLoop = some l → Quiet t l) : ∀ l, t'.eventLoop = some l → Quiet t' l := by
  intro l' hl'
  cases hstep with
  | same heq hrank hreturned =>
      obtain ⟨hholds, hbefore, hdone, hstopped⟩ := h l' (heq ▸ hl')
      refine ⟨hholds, fun hlt => hbefore (lt_of_le_of_lt hrank hlt), fun hplace => ?_, hstopped⟩
      rcases hreturned hplace with hplace' | ⟨l, hl, hexited⟩
      · exact hdone hplace'
      · cases hl.symm.trans (heq ▸ hl')
        exact hexited
  | made hnone hnew hplace =>
      cases hnew.symm.trans hl'
      exact ⟨⟨Queue.empty, rfl, rfl, rfl⟩, fun _ => ⟨rfl, rfl⟩,
        fun hdone => absurd (hplace.symm.trans hdone) nofun, nofun⟩
  | stepped l l₁ op hl hl₁ hstep hown hplace =>
      cases hl₁.symm.trans hl'
      obtain ⟨⟨q, hq⟩, hbefore, hdone, hstopped⟩ := h l hl
      obtain ⟨q', hq', -⟩ := hq.step hstep
      have hother (hne : t.place ≠ .looping) : l.Grows l' :=
        EventLoop.grows_of_isOther (hown.resolve_right hne) hstep
      refine ⟨⟨q', hq'⟩, fun hlt => ?_, fun hplace' => ?_,
        EventLoop.stopFlag_of_exited hstopped hstep⟩
      · rw [hplace] at hlt
        obtain ⟨hhead, htaken⟩ := hbefore hlt
        obtain ⟨hplace', htaken', -⟩ := hother fun hloop => by
          rw [hloop] at hlt
          exact absurd hlt (by decide)
        exact ⟨hplace'.trans hhead, htaken'.trans htaken⟩
      · rw [hplace] at hplace'
        obtain ⟨hplace'', -, -⟩ := hother fun hloop => by cases hloop.symm.trans hplace'
        exact hplace''.trans (hdone hplace')

/-- The threads and their loops. -/
structure Quieted (ids : ℕ → ℕ) (s : GroupRun α τ) : Prop where
  sound : Sound ids s
  quiet : ∀ i l, (s.threads i).eventLoop = some l → Quiet (s.threads i) l

theorem quieted_of_run {size : ℕ} {ops : List (GroupOp α τ)} {outs : List Unit}
    (hrun : (machine ids).run { size := size } ops = some (s, outs)) : Quieted ids s := by
  refine (machine ids).run_invariant (I := Quieted ids) ?_ ⟨sound_new ids size, nofun⟩ hrun
  rintro s op s' out ⟨hsound, hquiet⟩ hstep
  have hstepped := stepped_of_step hstep
  exact ⟨hsound.step hstepped, fun i => (hstepped.loopStep hsound i).quiet (hquiet i)⟩

def joinedBelow (s : GroupRun α τ) : ℕ :=
  match s.place with
  | .joining i => i
  | .joined => s.size
  | _ => 0

theorem LoopStep.returned {t t' : IOThreadMain α τ} (hstep : LoopStep t t')
    (hloop : t.eventLoop.isSome = true) (h : t.place = .returned) : t'.place = .returned := by
  cases hstep with
  | same heq hrank =>
      rw [h] at hrank
      cases hplace : t'.place <;> simp [hplace, MainPlace.rank] at hrank
      rfl
  | made hnone => simp [hnone] at hloop
  | stepped l l' op hl hl' hstep hown hplace => exact hplace.trans h

theorem returned_of_step {out : Unit} (hsound : Sound ids s)
    (h : ∀ i < s.joinedBelow, (s.threads i).place = .returned)
    (hstep : (machine ids).step s op = some (s', out)) :
    ∀ i < s'.joinedBelow, (s'.threads i).place = .returned := by
  have hstepped := stepped_of_step hstep
  have hkeeps {i : ℕ} (hi : (s.threads i).place = .returned) :
      (s'.threads i).place = .returned := by
    refine (hstepped.loopStep hsound i).returned ((hsound.threads i).eventLoop_iff.2 ?_) hi
    rw [hi]
    decide
  cases hstepped with
  | create | constructed | wait | start | post | started | join =>
      exact fun i hi => absurd hi (Nat.not_lt_zero i)
  | joinThread k hplace hlt hreturned =>
      intro i hi
      rcases Nat.lt_succ_iff_lt_or_eq.1 hi with hlt' | rfl
      · exact h i (by simpa only [joinedBelow, hplace] using hlt')
      · exact hreturned
  | joined k hplace hge =>
      intro i hi
      refine h i ?_
      simp only [joinedBelow, hplace]
      exact lt_of_lt_of_le hi hge
  | thread k t hmain | loop k op t hother hloop => exact fun i hi => hkeeps (h i hi)

/-- `join` returns only when somebody has stopped every loop. -/
theorem stopped_of_joined {size : ℕ} {ops : List (GroupOp α τ)} {outs : List Unit}
    (hrun : (machine ids).run { size := size } ops = some (s, outs)) (hplace : s.place = .joined)
    {i : ℕ} (hi : i < s.size) :
    ∃ l, (s.threads i).eventLoop = some l ∧ l.place = .exited ∧ l.stopFlag = true := by
  have hjoined : Sound ids s ∧ ∀ i < s.joinedBelow, (s.threads i).place = .returned := by
    refine (machine ids).run_invariant (I := fun s => Sound ids s ∧
      ∀ i < s.joinedBelow, (s.threads i).place = .returned) ?_
      ⟨sound_new ids size, fun i hi => absurd hi (Nat.not_lt_zero i)⟩ hrun
    rintro s op s' out ⟨hsound, hbelow⟩ hstep
    exact ⟨hsound.step (stepped_of_step hstep), returned_of_step hsound hbelow hstep⟩
  obtain ⟨hsound, hbelow⟩ := hjoined
  have hreturned := hbelow i (by simpa only [joinedBelow, hplace] using hi)
  have hloop := (hsound.threads i).eventLoop_iff
  rw [hreturned] at hloop
  obtain ⟨l, hl⟩ := Option.isSome_iff_exists.1 (hloop.2 (by decide))
  obtain ⟨-, -, hdone, hstopped⟩ := (quieted_of_run hrun).quiet i l hl
  exact ⟨l, hl, hdone hreturned, hstopped (hdone hreturned)⟩

theorem stopped_of_joined_one :
    ∃ s outs, (machine id).run ({ size := 1 } : GroupRun ℕ Unit)
        [.main, .thread 0, .thread 0, .thread 0, .main, .main, .start, .main, .main, .thread 0,
          .thread 0, .join, .loop 0 (.call (some ()) .stop), .loop 0 .loop, .thread 0, .main,
          .main] = some (s, outs) ∧
      s.place = .joined ∧ 0 < s.size ∧
      ∃ l, (s.threads 0).eventLoop = some l ∧ l.place = .exited ∧ l.stopFlag = true := by
  have hrun : ((machine id).run ({ size := 1 } : GroupRun ℕ Unit)
      [.main, .thread 0, .thread 0, .thread 0, .main, .main, .start, .main, .main, .thread 0,
        .thread 0, .join, .loop 0 (.call (some ()) .stop), .loop 0 .loop, .thread 0, .main,
        .main]).map (fun p => (p.1.place, p.1.size)) = some (.joined, 1) := by
    decide +kernel
  obtain ⟨⟨s, outs⟩, hrun, heq⟩ := Option.map_eq_some_iff.1 hrun
  obtain ⟨hplace, hsize⟩ := Prod.mk.inj heq
  have hpos : 0 < s.size := hsize.symm ▸ Nat.one_pos
  exact ⟨s, outs, hrun, hplace, hpos, stopped_of_joined hrun hplace hpos⟩

end GroupRun

end Rocket
