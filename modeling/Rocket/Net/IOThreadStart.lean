import Mathlib.Algebra.BigOperators.Group.Finset.Basic
import Mathlib.Algebra.Order.BigOperators.Group.Finset
import Rocket.Foundation.Execution
import Rocket.Net.LoopRounds

/-!
# Starting the IO threads

The constructor of an `IOThread` creates the thread and waits for `m_init_semaphore`, which
the thread posts when it has made its event loop. The thread then waits for
`m_start_semaphore`, which `IOThreadGroup::start` posts, and runs the loop. Between the two,
the loop can be given tasks.

The threads take their steps in any order. The steps of an event loop are those of
`EventLoop.machine`; the destructor of an `IOThread`, which nobody calls, is left out.
-/

namespace Rocket

open Foundation Machine

/-- Where a thread is in `IOThread::Main`: not created yet; before it makes the event loop,
reads its id, posts `m_init_semaphore`, waits for `m_start_semaphore`, and makes the main
coroutine; in the loop; and returned. -/
inductive MainPlace where
  | notCreated
  | entered
  | made
  | numbered
  | posted
  | released
  | looping
  | returned
  deriving DecidableEq, Repr

def MainPlace.rank : MainPlace → ℕ
  | .notCreated => 0
  | .entered => 1
  | .made => 2
  | .numbered => 3
  | .posted => 4
  | .released => 5
  | .looping => 6
  | .returned => 7

/-- `IOThread` with its thread. A null `m_event_loop` is `none`. -/
structure IOThreadMain (α τ : Type) where
  place : MainPlace := .notCreated
  threadId : ℕ := 0
  eventLoop : Option (EventLoop α τ) := none
  initSemaphore : ℕ := 0
  startSemaphore : ℕ := 0

/-- Where the main thread is: before the thread `i` is created or waiting for it, in the
constructor of the group; behind this; before the thread `i` is posted, in `start`; behind
this; before the thread `i` is joined, in `join`; and behind this. -/
inductive GroupPlace where
  | constructing (i : ℕ)
  | waiting (i : ℕ)
  | made
  | starting (i : ℕ)
  | started
  | joining (i : ℕ)
  | joined
  deriving DecidableEq, Repr

/-- `IOThreadGroup` with its threads, and the main thread. -/
structure GroupRun (α τ : Type) where
  size : ℕ
  place : GroupPlace := .constructing 0
  threads : ℕ → IOThreadMain α τ := fun _ => {}

/-- The main thread goes on in one of the functions of the group, or calls `start` or `join`;
the thread `i` goes on in `Main`; or its event loop takes a step, or is called. -/
inductive GroupOp (α τ : Type) where
  | main
  | start
  | join
  | thread (i : ℕ)
  | loop (i : ℕ) (op : LoopOp α τ)
  deriving DecidableEq, Repr

def GroupOp.Starts {α τ : Type} : GroupOp α τ → Prop
  | .main | .start | .thread _ => True
  | .join | .loop _ _ => False

namespace IOThreadMain

variable {α τ : Type} (t : IOThreadMain α τ)

/-- `IOThread::Main`, in the thread with the id `id`. -/
def main (id : ℕ) : Option (IOThreadMain α τ) :=
  match t.place with
  | .notCreated => none
  | .entered => some { t with eventLoop := some {}, place := .made }
  | .made => some { t with threadId := id, place := .numbered }
  | .numbered => some { t with initSemaphore := t.initSemaphore + 1, place := .posted }
  | .posted =>
      if t.startSemaphore = 0 then none
      else some { t with startSemaphore := t.startSemaphore - 1, place := .released }
  | .released => some { t with place := .looping }
  | .looping => t.eventLoop.bind fun l =>
      match l.place with
      | .exited => some { t with place := .returned }
      | _ => none
  | .returned => none

/-- A step of the event loop. Before the thread has come to it, only other threads use it. -/
def loop [DecidableEq τ] (op : LoopOp α τ) : Option (IOThreadMain α τ) := do
  let l ← t.eventLoop
  if op.isOther ∨ t.place = .looping then
    let (l', _) ← EventLoop.machine.step l op
    some { t with eventLoop := some l' }
  else none

end IOThreadMain

namespace GroupRun

variable {α τ : Type} (s : GroupRun α τ)

/-- The main thread has created the threads below this one. It has waited for those below
`inited`, and posted those below `posted`. -/
def created : ℕ :=
  match s.place with
  | .constructing i => i
  | .waiting i => i + 1
  | _ => s.size

def inited : ℕ :=
  match s.place with
  | .constructing i | .waiting i => i
  | _ => s.size

def posted : ℕ :=
  match s.place with
  | .constructing _ | .waiting _ | .made => 0
  | .starting i => i
  | _ => s.size

def setThread (i : ℕ) (t : IOThreadMain α τ) : GroupRun α τ :=
  { s with threads := Function.update s.threads i t }

/-- The main thread goes on in `IOThreadGroup::IOThreadGroup` and `IOThread::IOThread`, in
`IOThreadGroup::start` and `IOThread::start`, or in `IOThreadGroup::join` and
`IOThread::join`. -/
def main : Option (GroupRun α τ) :=
  match s.place with
  | .constructing i =>
      if i < s.size then some { s.setThread i { place := .entered } with place := .waiting i }
      else some { s with place := .made }
  | .waiting i =>
      let t := s.threads i
      if t.initSemaphore = 0 then none
      else some { s.setThread i { t with initSemaphore := t.initSemaphore - 1 } with
        place := .constructing (i + 1) }
  | .starting i =>
      let t := s.threads i
      if i < s.size then
        some { s.setThread i { t with startSemaphore := t.startSemaphore + 1 } with
          place := .starting (i + 1) }
      else some { s with place := .started }
  | .joining i =>
      if i < s.size then
        if (s.threads i).place = .returned then some { s with place := .joining (i + 1) } else none
      else some { s with place := .joined }
  | .made | .started | .joined => none

variable [DecidableEq τ]

/-- `ids` are the ids of the threads. The constructor of an `IOThread` has to be left before
other threads can use it. -/
def step (ids : ℕ → ℕ) : GroupOp α τ → Option (GroupRun α τ)
  | .main => s.main
  | .start => if s.place = .made then some { s with place := .starting 0 } else none
  | .join => if s.place = .started then some { s with place := .joining 0 } else none
  | .thread i => ((s.threads i).main (ids i)).map (s.setThread i)
  | .loop i op =>
      if op.isOther = true → i < s.inited then ((s.threads i).loop op).map (s.setThread i)
      else none

def machine (ids : ℕ → ℕ) : Machine (GroupRun α τ) (GroupOp α τ) Unit where
  step s op := (s.step ids op).map fun s' => (s', ())

end GroupRun

namespace IOThreadMain

variable {α τ : Type} {t t' : IOThreadMain α τ} {i created inited posted id : ℕ}

/-- The thread `i`, when the main thread has created, waited for and posted so many threads:
each semaphore has been posted once, if at all, and taken at most once after that. -/
structure Sound (i created inited posted id : ℕ) (t : IOThreadMain α τ) : Prop where
  created_iff : i < created ↔ 1 ≤ t.place.rank
  init : t.initSemaphore = 0 ∧ (i < inited ↔ 4 ≤ t.place.rank) ∨
    t.initSemaphore = 1 ∧ inited ≤ i ∧ 4 ≤ t.place.rank
  start : t.startSemaphore = 0 ∧ (i < posted ↔ 5 ≤ t.place.rank) ∨
    t.startSemaphore = 1 ∧ i < posted ∧ t.place.rank ≤ 4
  eventLoop_iff : t.eventLoop.isSome = true ↔ 2 ≤ t.place.rank
  threadId_eq : 3 ≤ t.place.rank → t.threadId = id

/-- A step of `Main` goes on by one place, and changes the event loop only when it makes
it. -/
structure Advanced (t t' : IOThreadMain α τ) : Prop where
  rank_eq : t'.place.rank = t.place.rank + 1
  eventLoop_eq : t'.eventLoop = if t.place = .entered then some {} else t.eventLoop
  exited : t'.place = .returned → ∃ l, t.eventLoop = some l ∧ l.place = .exited

/-- The thread is counted as before when the counts that the main thread has are the same for
it. -/
theorem Sound.congr {created' inited' posted' : ℕ} (h : t.Sound i created inited posted id)
    (hcreated : i < created' ↔ i < created) (hinited : i < inited' ↔ i < inited)
    (hposted : i < posted' ↔ i < posted) : t.Sound i created' inited' posted' id := by
  obtain ⟨h₁, h₂, h₃, h₄, h₅⟩ := h
  exact ⟨hcreated.trans h₁, by omega, by omega, h₄, h₅⟩

/-- The next place: the thread makes its event loop at the first one, reads its id at the
second, posts one semaphore at the third and has taken the other at the fourth. -/
theorem Sound.next (h : t.Sound i created inited posted id) (hpos : 1 ≤ t.place.rank)
    (hrank : t'.place.rank = t.place.rank + 1)
    (hinit : t'.initSemaphore = if t.place.rank = 3 then t.initSemaphore + 1 else t.initSemaphore)
    (hstart : t.startSemaphore =
      if t.place.rank = 4 then t'.startSemaphore + 1 else t'.startSemaphore)
    (hloop : t'.eventLoop.isSome = true ↔ t.place.rank = 1 ∨ t.eventLoop.isSome = true)
    (hid : t'.threadId = if t.place.rank = 2 then id else t.threadId) :
    t'.Sound i created inited posted id := by
  obtain ⟨h₁, h₂, h₃, h₄, h₅⟩ := h
  refine ⟨by omega, ?_, ?_, ?_, fun hnumbered => ?_⟩
  · split_ifs at hinit <;> omega
  · split_ifs at hstart <;> omega
  · rw [hloop, h₄]
    omega
  · rw [hid]
    split_ifs with hmade
    · rfl
    · exact h₅ (by omega)

theorem Sound.main (h : t.Sound i created inited posted id) (hmain : t.main id = some t') :
    t'.Sound i created inited posted id ∧ t.Advanced t' := by
  obtain ⟨place, threadId, eventLoop, initSemaphore, startSemaphore⟩ := t
  cases place with
  | notCreated | returned => cases hmain
  | entered | made | numbered | released =>
      cases hmain
      exact ⟨h.next (Nat.succ_pos _) rfl rfl rfl (by simp [MainPlace.rank]) rfl, ⟨rfl, rfl, nofun⟩⟩
  | posted =>
      obtain ⟨hpos, heq⟩ := Option.ite_none_left_eq_some.1 hmain
      cases heq
      refine ⟨h.next (Nat.succ_pos _) rfl rfl ?_ (by simp [MainPlace.rank]) rfl, ⟨rfl, rfl, nofun⟩⟩
      exact (Nat.sub_add_cancel (Nat.pos_of_ne_zero hpos)).symm
  | looping =>
      obtain ⟨l, hl, hbody⟩ := Option.bind_eq_some_iff.1 hmain
      cases hexit : l.place with
      | exited =>
          simp only [hexit, Option.some.injEq] at hbody
          cases hbody
          exact ⟨h.next (Nat.succ_pos _) rfl rfl rfl (by simp [MainPlace.rank]) rfl,
            ⟨rfl, rfl, fun _ => ⟨l, hl, hexit⟩⟩⟩
      | _ => simp [hexit] at hbody

theorem initSemaphore_of_main (hmain : t.main id = some t') (hrank : 5 < t.place.rank) :
    t'.initSemaphore = t.initSemaphore := by
  obtain ⟨place, threadId, eventLoop, initSemaphore, startSemaphore⟩ := t
  cases place with
  | notCreated | entered | made | numbered | posted | released =>
      simp [MainPlace.rank] at hrank
  | looping =>
      obtain ⟨l, hl, hbody⟩ := Option.bind_eq_some_iff.1 hmain
      cases hexit : l.place <;> simp [hexit] at hbody
      rw [← hbody]
  | returned => cases hmain

theorem startSemaphore_of_main (hmain : t.main id = some t') (hplace : t.place = .posted) :
    t.startSemaphore ≠ 0 := by
  simp only [IOThreadMain.main, hplace] at hmain
  exact (Option.ite_none_left_eq_some.1 hmain).1

end IOThreadMain

namespace GroupRun

variable {α τ : Type} {ids : ℕ → ℕ} {s s' : GroupRun α τ}

/-- The counts of the main thread are not above the number of the threads, and those of the
threads agree with them. -/
structure Sound (ids : ℕ → ℕ) (s : GroupRun α τ) : Prop where
  created_le : s.created ≤ s.size
  posted_le : s.posted ≤ s.size
  threads : ∀ i, (s.threads i).Sound i s.created s.inited s.posted (ids i)

theorem sound_new (ids : ℕ → ℕ) (size : ℕ) : Sound ids ({ size := size } : GroupRun α τ) where
  created_le := Nat.zero_le _
  posted_le := Nat.zero_le _
  threads _ := by
    refine ⟨?_, Or.inl ⟨rfl, ?_⟩, Or.inl ⟨rfl, ?_⟩, ?_, ?_⟩ <;>
      simp [MainPlace.rank, created, inited, posted]

theorem Sound.notCreated (h : Sound ids s) {i : ℕ} (hi : s.size ≤ i) :
    (s.threads i).place = .notCreated := by
  have hcreated := h.created_le
  have hrank := (h.threads i).created_iff
  have hzero : (s.threads i).place.rank = 0 := by omega
  cases hplace : (s.threads i).place <;> simp [hplace, MainPlace.rank] at hzero
  rfl

theorem Sound.of_counts (h : Sound ids s) (hsize : s'.size = s.size)
    (hthreads : s'.threads = s.threads) (hcreated : s'.created = s.created)
    (hinited : s'.inited = s.inited) (hposted : s'.posted = s.posted) : Sound ids s' where
  created_le := by rw [hcreated, hsize]; exact h.created_le
  posted_le := by rw [hposted, hsize]; exact h.posted_le
  threads i := by
    rw [hthreads, hcreated, hinited, hposted]
    exact h.threads i

theorem Sound.of_thread (h : Sound ids s) {i : ℕ} {t : IOThreadMain α τ}
    (hsize : s'.size = s.size) (hthreads : s'.threads = Function.update s.threads i t)
    (hcreated_le : s'.created ≤ s.size) (hposted_le : s'.posted ≤ s.size)
    (hcounts : ∀ j, j ≠ i → (j < s'.created ↔ j < s.created) ∧ (j < s'.inited ↔ j < s.inited) ∧
      (j < s'.posted ↔ j < s.posted))
    (ht : t.Sound i s'.created s'.inited s'.posted (ids i)) : Sound ids s' where
  created_le := by rw [hsize]; exact hcreated_le
  posted_le := by rw [hsize]; exact hposted_le
  threads j := by
    rw [hthreads]
    by_cases hj : j = i
    · subst hj
      rwa [Function.update_self]
    · obtain ⟨hc, hi, hp⟩ := hcounts j hj
      rw [Function.update_of_ne hj]
      exact (h.threads j).congr hc hi hp

/-- The steps that a thread has still to take to its loop, when it is created. -/
def threadLeft (t : IOThreadMain α τ) : ℕ := 6 - max 1 t.place.rank

/-- The steps that the main thread has still to take until it has posted all threads. -/
def mainLeft (s : GroupRun α τ) : ℕ :=
  match s.place with
  | .constructing i => 2 * (s.size - i) + s.size + 3
  | .waiting i => 2 * (s.size - i) + s.size + 2
  | .made => s.size + 2
  | .starting i => s.size - i + 1
  | .started | .joining _ | .joined => 0

/-- The steps until all threads are in their loops. -/
def left (s : GroupRun α τ) : ℕ :=
  s.mainLeft + ∑ i ∈ Finset.range s.size, threadLeft (s.threads i)

def Ready (s : GroupRun α τ) : GroupOp α τ → Prop
  | .main =>
      match s.place with
      | .constructing _ | .starting _ => True
      | .waiting i => (s.threads i).initSemaphore ≠ 0
      | _ => False
  | .start => s.place = .made
  | .thread i =>
      i < s.size ∧ 1 ≤ (s.threads i).place.rank ∧ (s.threads i).place.rank ≤ 5 ∧
        ((s.threads i).place = .posted → (s.threads i).startSemaphore ≠ 0)
  | .join | .loop _ _ => False

theorem sum_update {i : ℕ} {t : IOThreadMain α τ} (hi : i < s.size) :
    ∑ j ∈ Finset.range s.size, threadLeft (Function.update s.threads i t j) +
        threadLeft (s.threads i) =
      ∑ j ∈ Finset.range s.size, threadLeft (s.threads j) + threadLeft t := by
  have hmem := Finset.mem_range.2 hi
  rw [← Finset.sum_erase_add _ _ hmem, ← Finset.sum_erase_add _ _ hmem, Function.update_self,
    Finset.sum_congr rfl fun j hj => by rw [Function.update_of_ne (Finset.ne_of_mem_erase hj)]]
  exact Nat.add_right_comm _ _ _

theorem sum_update_of_eq {i : ℕ} {t : IOThreadMain α τ}
    (ht : threadLeft t = threadLeft (s.threads i)) :
    ∑ j ∈ Finset.range s.size, threadLeft (Function.update s.threads i t j) =
      ∑ j ∈ Finset.range s.size, threadLeft (s.threads j) := by
  refine Finset.sum_congr rfl fun j _ => ?_
  by_cases hj : j = i
  · subst hj
    rw [Function.update_self, ht]
  · rw [Function.update_of_ne hj]

/-- When one thread changes and could not go on to its loop, or still can, what leads on for
the others does so still. -/
theorem Ready.congr {op : GroupOp α τ} {t : IOThreadMain α τ} {k : ℕ} (h : s.Ready op)
    (hinit : t.initSemaphore = (s.threads k).initSemaphore)
    (hthread : s.Ready (.thread k) →
      t.place = (s.threads k).place ∧ t.startSemaphore = (s.threads k).startSemaphore) :
    (s.setThread k t).Ready op := by
  cases op with
  | main =>
      have hsame (i : ℕ) :
          ((s.setThread k t).threads i).initSemaphore = (s.threads i).initSemaphore := by
        by_cases hi : i = k
        · subst hi
          simp [setThread, hinit]
        · simp [setThread, Function.update_of_ne hi]
      change match s.place with
        | .constructing _ | .starting _ => True
        | .waiting i => ((s.setThread k t).threads i).initSemaphore ≠ 0
        | _ => False
      simp only [hsame]
      exact h
  | start => exact h
  | thread i =>
      by_cases hi : i = k
      · subst hi
        obtain ⟨hplace, hstart⟩ := hthread h
        simp only [Ready, setThread, Function.update_self, hplace, hstart]
        exact h
      · simp only [Ready, setThread, Function.update_of_ne hi]
        exact h
  | join | loop => exact h

variable [DecidableEq τ] {op : GroupOp α τ}

inductive Stepped (ids : ℕ → ℕ) (s : GroupRun α τ) : GroupOp α τ → GroupRun α τ → Prop where
  | create (i : ℕ) (hplace : s.place = .constructing i) (hlt : i < s.size) :
      Stepped ids s .main { s.setThread i { place := .entered } with place := .waiting i }
  | constructed (i : ℕ) (hplace : s.place = .constructing i) (hge : s.size ≤ i) :
      Stepped ids s .main { s with place := .made }
  | wait (i : ℕ) (hplace : s.place = .waiting i) (hpos : (s.threads i).initSemaphore ≠ 0) :
      Stepped ids s .main { s.setThread i { s.threads i with
        initSemaphore := (s.threads i).initSemaphore - 1 } with place := .constructing (i + 1) }
  | start (hplace : s.place = .made) : Stepped ids s .start { s with place := .starting 0 }
  | post (i : ℕ) (hplace : s.place = .starting i) (hlt : i < s.size) :
      Stepped ids s .main { s.setThread i { s.threads i with
        startSemaphore := (s.threads i).startSemaphore + 1 } with place := .starting (i + 1) }
  | started (i : ℕ) (hplace : s.place = .starting i) (hge : s.size ≤ i) :
      Stepped ids s .main { s with place := .started }
  | join (hplace : s.place = .started) : Stepped ids s .join { s with place := .joining 0 }
  | joinThread (i : ℕ) (hplace : s.place = .joining i) (hlt : i < s.size)
      (hreturned : (s.threads i).place = .returned) :
      Stepped ids s .main { s with place := .joining (i + 1) }
  | joined (i : ℕ) (hplace : s.place = .joining i) (hge : s.size ≤ i) :
      Stepped ids s .main { s with place := .joined }
  | thread (i : ℕ) (t : IOThreadMain α τ) (hmain : (s.threads i).main (ids i) = some t) :
      Stepped ids s (.thread i) (s.setThread i t)
  | loop (i : ℕ) (op : LoopOp α τ) (t : IOThreadMain α τ)
      (hother : op.isOther = true → i < s.inited) (hloop : (s.threads i).loop op = some t) :
      Stepped ids s (.loop i op) (s.setThread i t)

theorem stepped_of_main (h : s.main = some s') : Stepped ids s .main s' := by
  unfold main at h
  cases hplace : s.place with
  | constructing i =>
      simp only [hplace] at h
      split_ifs at h with hlt
      · cases h
        exact .create i hplace hlt
      · cases h
        exact .constructed i hplace (not_lt.1 hlt)
  | waiting i =>
      simp only [hplace] at h
      obtain ⟨hpos, heq⟩ := Option.ite_none_left_eq_some.1 h
      cases heq
      exact .wait i hplace hpos
  | starting i =>
      simp only [hplace] at h
      split_ifs at h with hlt
      · cases h
        exact .post i hplace hlt
      · cases h
        exact .started i hplace (not_lt.1 hlt)
  | joining i =>
      simp only [hplace] at h
      split_ifs at h with hlt hreturned
      · cases h
        exact .joinThread i hplace hlt hreturned
      · cases h
        exact .joined i hplace (not_lt.1 hlt)
  | made | started | joined => simp [hplace] at h

theorem stepped_of_step {out : Unit} (h : (machine ids).step s op = some (s', out)) :
    Stepped ids s op s' := by
  obtain ⟨t, hstep, heq⟩ := Option.map_eq_some_iff.1 h
  cases heq
  cases op with
  | main => exact stepped_of_main hstep
  | start =>
      obtain ⟨hplace, heq⟩ := Option.ite_none_right_eq_some.1 hstep
      cases heq
      exact .start hplace
  | join =>
      obtain ⟨hplace, heq⟩ := Option.ite_none_right_eq_some.1 hstep
      cases heq
      exact .join hplace
  | thread i =>
      obtain ⟨t, hmain, heq⟩ := Option.map_eq_some_iff.1 hstep
      cases heq
      exact .thread i t hmain
  | loop i op =>
      obtain ⟨hother, hbody⟩ := Option.ite_none_right_eq_some.1 hstep
      obtain ⟨t, hloop, heq⟩ := Option.map_eq_some_iff.1 hbody
      cases heq
      exact .loop i op t hother hloop

theorem Sound.step (h : Sound ids s) (hstep : Stepped ids s op s') : Sound ids s' := by
  have hcreated := h.created_le
  have hposted := h.posted_le
  cases hstep with
  | create i hplace hlt =>
      simp only [created, posted, hplace] at hcreated hposted
      refine h.of_thread rfl rfl hlt hposted (fun j hj => ?_) ?_
      · simp only [created, inited, posted, hplace, iff_self, and_true]
        omega
      · refine ⟨?_, Or.inl ⟨rfl, ?_⟩, Or.inl ⟨rfl, ?_⟩, ?_, ?_⟩ <;>
          simp [MainPlace.rank, created, inited, posted]
  | constructed i hplace hge =>
      simp only [created, hplace] at hcreated
      have hi : s.size = i := le_antisymm hge hcreated
      exact h.of_counts rfl rfl (by simp [created, hplace, hi]) (by simp [inited, hplace, hi])
        (by simp [posted, hplace])
  | wait i hplace hpos =>
      simp only [created, posted, hplace] at hcreated hposted
      have hi := h.threads i
      simp only [created, inited, posted, hplace] at hi
      refine h.of_thread rfl rfl hcreated hposted (fun j hj => ?_) ?_
      · simp only [created, inited, posted, hplace, iff_self, and_true, true_and]
        omega
      · obtain ⟨h₁, h₂, h₃, h₄, h₅⟩ := hi
        simp only [created, inited, posted]
        exact ⟨h₁, by dsimp only; omega, h₃, h₄, h₅⟩
  | start hplace =>
      exact h.of_counts rfl rfl (by simp [created, hplace]) (by simp [inited, hplace])
        (by simp [posted, hplace])
  | post i hplace hlt =>
      simp only [created, posted, hplace] at hcreated hposted
      have hi := h.threads i
      simp only [created, inited, posted, hplace] at hi
      refine h.of_thread rfl rfl hcreated hlt (fun j hj => ?_) ?_
      · simp only [created, inited, posted, hplace, setThread, iff_self, true_and]
        omega
      · obtain ⟨h₁, h₂, h₃, h₄, h₅⟩ := hi
        simp only [created, inited, posted]
        exact ⟨h₁, h₂, by dsimp only; omega, h₄, h₅⟩
  | started i hplace hge =>
      simp only [posted, hplace] at hposted
      have hi : s.size = i := le_antisymm hge hposted
      exact h.of_counts rfl rfl (by simp [created, hplace]) (by simp [inited, hplace])
        (by simp [posted, hplace, hi])
  | join hplace | joinThread i hplace | joined i hplace =>
      exact h.of_counts rfl rfl (by simp [created, hplace]) (by simp [inited, hplace])
        (by simp [posted, hplace])
  | thread i t hmain =>
      exact h.of_thread rfl rfl hcreated hposted (fun j _ => ⟨Iff.rfl, Iff.rfl, Iff.rfl⟩)
        ((h.threads i).main hmain).1
  | loop i op t hother hloop =>
      obtain ⟨l, hl, hbody⟩ := Option.bind_eq_some_iff.1 hloop
      obtain ⟨-, hbody⟩ := Option.ite_none_right_eq_some.1 hbody
      obtain ⟨⟨l', out⟩, -, heq⟩ := Option.bind_eq_some_iff.1 hbody
      cases heq
      have hi := h.threads i
      refine h.of_thread rfl rfl hcreated hposted (fun j _ => ⟨Iff.rfl, Iff.rfl, Iff.rfl⟩)
        ⟨hi.created_iff, hi.init, hi.start, ?_, hi.threadId_eq⟩
      rw [← hi.eventLoop_iff, hl]
      rfl

/-- A step leads on to the loops, or it leaves what is left as it is, and does not take away
another step that leads on. -/
theorem Stepped.ready_or_keeps (h : Sound ids s) (hstep : Stepped ids s op s') :
    s.Ready op ∧ s'.left < s.left ∨
      ¬ s.Ready op ∧ s'.left = s.left ∧ ∀ op', s.Ready op' → s'.Ready op' := by
  cases hstep with
  | create i hplace hlt =>
      have hrank := (h.threads i).created_iff
      simp only [created, hplace, lt_irrefl, false_iff, not_le, Nat.lt_one_iff] at hrank
      have hsum : threadLeft { place := .entered : IOThreadMain α τ } =
          threadLeft (s.threads i) := by
        rw [threadLeft, threadLeft, hrank]
        rfl
      refine Or.inl ⟨by simp [Ready, hplace], ?_⟩
      simp only [left, mainLeft, hplace, setThread, sum_update_of_eq hsum]
      omega
  | constructed i hplace hge =>
      refine Or.inl ⟨by simp [Ready, hplace], ?_⟩
      simp only [left, mainLeft, hplace]
      omega
  | wait i hplace hpos =>
      have hcreated := h.created_le
      simp only [created, hplace] at hcreated
      refine Or.inl ⟨by simpa [Ready, hplace] using hpos, ?_⟩
      simp only [left, mainLeft, hplace, setThread]
      rw [sum_update_of_eq (by rfl)]
      omega
  | start hplace =>
      refine Or.inl ⟨hplace, ?_⟩
      simp only [left, mainLeft, hplace]
      omega
  | post i hplace hlt =>
      refine Or.inl ⟨by simp [Ready, hplace], ?_⟩
      simp only [left, mainLeft, hplace, setThread]
      rw [sum_update_of_eq (by rfl)]
      omega
  | started i hplace hge =>
      refine Or.inl ⟨by simp [Ready, hplace], ?_⟩
      simp only [left, mainLeft, hplace]
      omega
  | join hplace =>
      refine Or.inr ⟨id, by simp [left, mainLeft, hplace], fun op' hready => ?_⟩
      cases op' <;> simp_all [Ready]
  | joinThread i hplace | joined i hplace =>
      refine Or.inr ⟨by simp [Ready, hplace], by simp [left, mainLeft, hplace],
        fun op' hready => ?_⟩
      cases op' <;> simp_all [Ready]
  | thread i t hmain =>
      obtain ⟨hsound, hrank, -, -⟩ := (h.threads i).main hmain
      have hcreated : i < s.created := hsound.created_iff.2 (by omega)
      have hlt := lt_of_lt_of_le hcreated h.created_le
      have hpos := (h.threads i).created_iff.1 hcreated
      have hsum := sum_update (t := t) hlt
      rcases Nat.lt_or_ge 5 (s.threads i).place.rank with hloop | hbefore
      · refine Or.inr ⟨fun hready => absurd hready.2.2.1 (not_le.2 hloop), ?_,
          fun op' hready => hready.congr ?_ fun hready => absurd hready.2.2.1 (not_le.2 hloop)⟩
        · have ht : threadLeft t = threadLeft (s.threads i) := by
            rw [threadLeft, threadLeft]
            omega
          exact congrArg (s.mainLeft + ·) (sum_update_of_eq ht)
        · exact IOThreadMain.initSemaphore_of_main hmain hloop
      · refine Or.inl ⟨⟨hlt, hpos, hbefore, fun hposted => ?_⟩, ?_⟩
        · exact IOThreadMain.startSemaphore_of_main hmain hposted
        · have ht : threadLeft t < threadLeft (s.threads i) := by
            rw [threadLeft, threadLeft]
            omega
          change s.mainLeft + _ < s.mainLeft + _
          simp only [setThread]
          omega
  | loop i op t hother hloop =>
      obtain ⟨l, hl, hbody⟩ := Option.bind_eq_some_iff.1 hloop
      obtain ⟨-, hbody⟩ := Option.ite_none_right_eq_some.1 hbody
      obtain ⟨⟨l', out⟩, -, heq⟩ := Option.bind_eq_some_iff.1 hbody
      cases heq
      refine Or.inr ⟨id, ?_, fun op' hready => hready.congr rfl fun _ => ⟨rfl, rfl⟩⟩
      exact congrArg (s.mainLeft + ·) (sum_update_of_eq rfl)

theorem Ready.isSome_step (h : s.Ready op) : (s.step ids op).isSome = true := by
  cases op with
  | main =>
      cases hplace : s.place with
      | constructing i | starting i =>
          simp only [step, main, hplace]
          split <;> rfl
      | waiting i =>
          simp only [Ready, hplace] at h
          simp [step, main, hplace, h]
      | made | started | joining | joined => simp [Ready, hplace] at h
  | start => exact Option.isSome_iff_exists.2 ⟨_, if_pos h⟩
  | thread i =>
      obtain ⟨-, hpos, hle, hposted⟩ := h
      cases hplace : (s.threads i).place with
      | entered | made | numbered | released => simp [step, IOThreadMain.main, hplace]
      | posted => simp [step, IOThreadMain.main, hplace, hposted hplace]
      | notCreated | looping | returned => simp [hplace, MainPlace.rank] at hpos hle
  | join | loop => cases h

omit [DecidableEq τ] in
theorem Ready.starts (h : s.Ready op) : op.Starts := by
  cases op with
  | main | start | thread => trivial
  | join | loop => cases h

theorem Ready.helps (hsound : Sound ids s) (h : s.Ready op) : (machine ids).Helps left s op := by
  have hsome : (s.step ids op).isSome = true := h.isSome_step
  obtain ⟨s', hstep⟩ := Option.isSome_iff_exists.1 hsome
  have hstep' : (machine ids).step s op = some (s', ()) := by
    simp only [machine, hstep, Option.map_some]
  rcases (stepped_of_step hstep').ready_or_keeps hsound with ⟨-, hlt⟩ | ⟨hnot, -, -⟩
  · exact ⟨s', (), hstep', hlt⟩
  · exact absurd h hnot

omit [DecidableEq τ] in
/-- As long as some thread is not in its loop, a step leads on: the main thread is not blocked,
or the thread that it waits for is not. -/
theorem Sound.exists_ready (h : Sound ids s) (hleft : s.left ≠ 0) : ∃ op, s.Ready op := by
  have hcreated := h.created_le
  have hthread {i : ℕ} (hlt : i < s.size) (hpos : 1 ≤ (s.threads i).place.rank)
      (hle : (s.threads i).place.rank ≤ 5)
      (hstart : (s.threads i).place = .posted → (s.threads i).startSemaphore ≠ 0) :
      ∃ op, s.Ready op := ⟨.thread i, hlt, hpos, hle, hstart⟩
  cases hplace : s.place with
  | constructing i | starting i => exact ⟨.main, by simp [Ready, hplace]⟩
  | made => exact ⟨.start, hplace⟩
  | waiting i =>
      by_cases hpos : (s.threads i).initSemaphore = 0
      · obtain ⟨hc, hinit, hstart, -, -⟩ := h.threads i
        simp only [created, inited, posted, hplace] at hc hinit hstart hcreated
        refine hthread hcreated (by omega) (by omega) fun hposted => ?_
        rw [hposted] at hinit
        simp only [MainPlace.rank] at hinit
        omega
      · exact ⟨.main, by simpa [Ready, hplace] using hpos⟩
  | started | joining k | joined =>
      have hsum : ∑ i ∈ Finset.range s.size, threadLeft (s.threads i) ≠ 0 := by
        simpa [left, mainLeft, hplace] using hleft
      obtain ⟨i, hi, hne⟩ := Finset.exists_ne_zero_of_sum_ne_zero hsum
      have hlt := Finset.mem_range.1 hi
      obtain ⟨hc, hinit, hstart, -, -⟩ := h.threads i
      simp only [created, posted, hplace, hlt, true_iff] at hc hstart
      rw [threadLeft] at hne
      refine hthread hlt hc (by omega) fun hposted => ?_
      rw [hposted] at hstart
      simp only [MainPlace.rank] at hstart
      omega

theorem countsDown (ids : ℕ → ℕ) :
    CountsDown (machine (α := α) (τ := τ) ids) (fun _ _ => True) (fun _ => GroupOp.Starts)
      (Sound ids) left where
  keeps _ _ _ _ h _ hstep := h.step (stepped_of_step hstep)
  le _ _ _ _ h _ hstep := by
    rcases (stepped_of_step hstep).ready_or_keeps h with ⟨-, hlt⟩ | ⟨-, heq, -⟩
    · exact hlt.le
    · exact heq.le
  helps s h hleft := by
    obtain ⟨op, hready⟩ := h.exists_ready hleft
    exact ⟨op, hready.starts, hready.helps h⟩
  stays s op op' s' _ h _ hhelps _ hstep := by
    obtain ⟨t, out, hstep', hlt⟩ := hhelps
    rcases (stepped_of_step hstep').ready_or_keeps h with ⟨hready, -⟩ | ⟨-, heq, -⟩
    · rcases (stepped_of_step hstep).ready_or_keeps h with ⟨-, hlt'⟩ | ⟨-, -, hkeeps⟩
      · exact Or.inl hlt'
      · have hready' := hkeeps op hready
        exact Or.inr ⟨hready'.starts, hready'.helps (h.step (stepped_of_step hstep))⟩
    · exact absurd heq hlt.ne

structure Running (s : GroupRun α τ) : Prop where
  place : s.place = .started ∨ (∃ i, s.place = .joining i) ∨ s.place = .joined
  threads : ∀ i < s.size, (s.threads i).place = .looping ∨ (s.threads i).place = .returned

omit [DecidableEq τ] in
theorem Sound.running (h : Sound ids s) (hleft : s.left = 0) : s.Running := by
  obtain ⟨hmain, hsum⟩ := Nat.add_eq_zero_iff.1 hleft
  have hcreated : s.created = s.size ∧
      (s.place = .started ∨ (∃ i, s.place = .joining i) ∨ s.place = .joined) := by
    cases hplace : s.place <;> simp [mainLeft, hplace] at hmain <;> simp [created, hplace]
  refine ⟨hcreated.2, fun i hi => ?_⟩
  have hpos := (h.threads i).created_iff.1 (hcreated.1 ▸ hi)
  have hzero := Finset.sum_eq_zero_iff.1 hsum i (Finset.mem_range.2 hi)
  rw [threadLeft] at hzero
  cases hplace : (s.threads i).place <;> simp_all [MainPlace.rank]

/-- If the main thread and the IO threads go on when they can, the start comes to its end: from
some time on, all threads are in their event loops or behind them. What the loops do, and who
gives them tasks, does not matter. -/
theorem running_of_fair (ids : ℕ → ℕ) (size : ℕ) (e : Execution (machine (α := α) (τ := τ) ids))
    (hnew : e.state 0 = { size := size }) (hfair : e.WeaklyFair fun _ => GroupOp.Starts) :
    ∃ n, ∀ m, n ≤ m → (e.state m).Running := by
  have hzero : Sound ids (e.state 0) := hnew ▸ sound_new ids size
  have hok : e.Meets fun _ _ => True := fun _ _ _ => trivial
  obtain ⟨n, hn⟩ := (countsDown ids).eventually hok hzero hfair
  exact ⟨n, fun m hm => (hok.invariant (countsDown ids).keeps hzero m).running (hn m hm)⟩

/-- Two threads. The first one is in its loop when the second one has not been posted yet. -/
def twoThreads : List (GroupOp ℕ Unit) :=
  [.main, .thread 0, .thread 0, .thread 0, .main, .main, .thread 1, .thread 1,
    .loop 0 (.call (some ()) (.onAccept 7)), .thread 1, .main, .main, .start, .main, .thread 0,
    .thread 0, .loop 0 .loop, .main, .main, .thread 1, .thread 1]

theorem running_of_fair_twoThreads :
    ∃ e : Execution (machine (α := ℕ) (τ := Unit) (· + 1)), e.state 0 = { size := 2 } ∧
      (e.WeaklyFair fun _ => GroupOp.Starts) ∧ ∃ n, ∀ m, n ≤ m → (e.state m).Running := by
  have hrun : ((machine (· + 1)).run ({ size := 2 } : GroupRun ℕ Unit) twoThreads).map
      (fun p => (p.1.size, p.1.place, ((p.1.threads 0).main 1).isSome,
        ((p.1.threads 1).main 2).isSome)) = some (2, .started, false, false) := by
    decide +kernel
  obtain ⟨⟨s, outs⟩, hrun, heq⟩ := Option.map_eq_some_iff.1 hrun
  obtain ⟨hsize, heq⟩ := Prod.mk.inj heq
  obtain ⟨hplace, heq⟩ := Prod.mk.inj heq
  obtain ⟨hfirst, hsecond⟩ := Prod.mk.inj heq
  change s.size = 2 at hsize
  change s.place = .started at hplace
  have hsound : Sound (· + 1) s :=
    (machine (· + 1)).run_invariant (fun _ _ _ _ h => (countsDown (· + 1)).keeps _ _ _ _ h trivial)
      (sound_new (· + 1) 2) hrun
  have hthread (i : ℕ) : (s.threads i).main (i + 1) = none := by
    match i with
    | 0 => exact Option.not_isSome_iff_eq_none.1 (Bool.eq_false_iff.1 hfirst)
    | 1 => exact Option.not_isSome_iff_eq_none.1 (Bool.eq_false_iff.1 hsecond)
    | i + 2 =>
        have hge : s.size ≤ i + 2 := hsize ▸ Nat.le_add_left 2 i
        simp [IOThreadMain.main, hsound.notCreated hge]
  have hend : ∀ k u, (fun _ u => u = s : ℕ → GroupRun ℕ Unit → Prop) k u → ∀ op : GroupOp ℕ Unit,
      op.Starts → op ∈ [] ∨ (machine (· + 1)).step u op = none := by
    rintro k u rfl op hop
    refine Or.inr ?_
    cases op with
    | main => simp [machine, step, main, hplace]
    | start => simp [machine, step, hplace]
    | thread i => simp [machine, step, hthread i]
    | join | loop => cases hop
  have hstays := Execution.cycles_of_run (Machine.run_nil (machine (· + 1)) s)
  have hfair : (Execution.cycling hrun rfl hstays).WeaklyFair fun _ => GroupOp.Starts :=
    Execution.weaklyFair_cycling hrun rfl hstays hend
  exact ⟨_, rfl, hfair, running_of_fair (· + 1) 2 _ rfl hfair⟩

end GroupRun

end Rocket
