import Mathlib.Data.List.Nodup
import Mathlib.Logic.Function.Basic
import Rocket.Foundation.Machine

/-!
# CoroutinePool

The pool hands out the coroutines of a thread and takes them back. It finds the slot
of a coroutine by its id, so the two have to be the same number. They are as long as
every request is served from the pool: the branch that makes the pool larger writes
each new coroutine to two slots, over whatever the first one holds, and hands out a
coroutine that it does not mark.

Coroutines are given by their ids, which are unique in a thread. Their stacks are
left out.
-/

namespace Rocket

open Foundation

/-- The id of a new coroutine, and the next `t_cur_coroutine_id`. The first coroutine
of a thread makes the main one, with the id 0, before it takes its own. -/
def newCoroutine (curCoroutineId : ℕ) : ℕ × ℕ :=
  let id := if curCoroutineId = 0 then 1 else curCoroutineId
  (id, id + 1)

/-- A slot of the pool: a coroutine, unless it is null, and whether it is in use. -/
structure CoroutineSlot where
  first : Option ℕ := none
  second : Bool := false
  deriving DecidableEq, Repr

/-- `CoroutinePool`, with `t_cur_coroutine_id`. `inCoFunc` tells which coroutines are in
their callbacks, and `handedOut` which ones have been handed out and not returned. -/
structure CoroutinePool where
  index : ℕ
  poolSize : ℕ
  freeCors : List CoroutineSlot
  curCoroutineId : ℕ
  inCoFunc : ℕ → Bool := fun _ => false
  handedOut : List ℕ := []

namespace CoroutinePool

/-- The loop of the constructor, from the slot `i` on. -/
def fill : ℕ → ℕ → List CoroutineSlot → ℕ → List CoroutineSlot × ℕ
  | 0, _, slots, curCoroutineId => (slots, curCoroutineId)
  | n + 1, i, slots, curCoroutineId =>
      let (c, curCoroutineId) := newCoroutine curCoroutineId
      fill n (i + 1) (slots.set i ⟨some c, false⟩) curCoroutineId

/-- `CoroutinePool::CoroutinePool`. -/
def new (curCoroutineId poolSize : ℕ) : CoroutinePool :=
  let index := if curCoroutineId = 0 then 1 else curCoroutineId
  let filled := fill poolSize index (List.replicate (poolSize + index) {}) curCoroutineId
  { index := index, poolSize := poolSize, freeCors := filled.1, curCoroutineId := filled.2 }

variable (p : CoroutinePool)

/-- The coroutine in the slot `i` is neither in its callback nor in use. -/
def isFree (i : ℕ) : Bool :=
  match p.freeCors[i]? with
  | some ⟨some c, second⟩ => !p.inCoFunc c && !second
  | _ => false

/-- The loop of `getCoroutineInstanse` over `n` slots from `i` on. It is undefined when
it meets a slot that does not exist or is null. -/
def find : ℕ → ℕ → Option (Option ℕ)
  | 0, _ => some none
  | n + 1, i =>
      match p.freeCors[i]? with
      | none | some ⟨none, _⟩ => none
      | some ⟨some _, _⟩ => if p.isFree i then some (some i) else find n (i + 1)

/-- The loop that makes the pool larger, over `n` slots from `i` on. -/
def grow : ℕ → ℕ → CoroutinePool → Option CoroutinePool
  | 0, _, p => some p
  | n + 1, i, p =>
      let (c, curCoroutineId) := newCoroutine p.curCoroutineId
      let slot : CoroutineSlot := ⟨some c, false⟩
      if i < p.freeCors.length then
        grow n (i + 1) { p with
          freeCors := p.freeCors.set i slot ++ [slot]
          curCoroutineId := curCoroutineId }
      else none

/-- Write to the flag of the slot `i`. -/
def mark (i : ℕ) (second : Bool) : CoroutinePool :=
  { p with freeCors := p.freeCors.modify i fun slot => { slot with second := second } }

/-- Hand out what the slot `i` holds. -/
def handOut (i : ℕ) : Option (CoroutinePool × Option ℕ) :=
  (p.freeCors[i]?).map fun slot =>
    ({ p with handedOut := slot.first.toList ++ p.handedOut }, slot.first)

/-- `CoroutinePool::getCoroutineInstanse`. -/
def getCoroutineInstanse : Option (CoroutinePool × Option ℕ) := do
  match ← p.find (p.poolSize - p.index) p.index with
  | some i => (p.mark i true).handOut i
  | none =>
      let newsize := 3 * p.poolSize / 2
      let grown ← grow (newsize - p.poolSize) 0 p
      { grown with poolSize := newsize }.handOut p.poolSize

/-- `CoroutinePool::returnCoroutine`. -/
def returnCoroutine (c : ℕ) : Option CoroutinePool :=
  if c < p.freeCors.length then some { p.mark c false with handedOut := p.handedOut.erase c }
  else none

end CoroutinePool

/-- What happens to a pool. `run` says that the holder of a coroutine has made it enter
or leave its callback. -/
inductive PoolOp where
  | getCoroutineInstanse
  | returnCoroutine (c : ℕ)
  | run (c : ℕ) (isInCoFunc : Bool)
  deriving DecidableEq, Repr

namespace CoroutinePool

/-- One operation, with the coroutine that is handed out. A coroutine is returned by its
holder, when it has finished. -/
def step (p : CoroutinePool) : PoolOp → Option (CoroutinePool × Option ℕ)
  | .getCoroutineInstanse => p.getCoroutineInstanse
  | .returnCoroutine c =>
      if c ∈ p.handedOut ∧ p.inCoFunc c = false then (p.returnCoroutine c).map fun p => (p, none)
      else none
  | .run c b =>
      if c ∈ p.handedOut then some ({ p with inCoFunc := Function.update p.inCoFunc c b }, none)
      else none

def machine : Machine CoroutinePool PoolOp (Option ℕ) := ⟨step⟩

/-- Each request finds a free slot among those that the loop looks at. -/
def FindsFree (p : CoroutinePool) : PoolOp → Prop
  | .getCoroutineInstanse => ∃ i < p.poolSize, p.index ≤ i ∧ p.isFree i = true
  | _ => True

instance (p : CoroutinePool) : ∀ op, Decidable (p.FindsFree op)
  | .getCoroutineInstanse =>
      inferInstanceAs (Decidable (∃ i < p.poolSize, p.index ≤ i ∧ p.isFree i = true))
  | .returnCoroutine _ | .run _ _ => isTrue trivial

/-- No coroutine has two holders; every coroutine of the pool is in the slot of its id,
and marked while it is handed out; and the loop looks at such slots only. -/
structure Exclusive (p : CoroutinePool) : Prop where
  nodup : p.handedOut.Nodup
  own : ∀ c, p.index ≤ c → c < p.curCoroutineId → ∃ b, p.freeCors[c]? = some ⟨some c, b⟩
  inUse : ∀ c ∈ p.handedOut, p.freeCors[c]? = some ⟨some c, true⟩
  inBounds : p.poolSize ≤ p.curCoroutineId ∧ p.curCoroutineId ≤ p.freeCors.length

variable {p p' : CoroutinePool}

/-- The constructor puts the coroutine `i` into the slot `i`. -/
theorem fill_spec (n : ℕ) {i cur : ℕ} (slots : List CoroutineSlot) (hcur : (newCoroutine cur).1 = i)
    (hlen : i + n ≤ slots.length) :
    (fill n i slots cur).1.length = slots.length ∧
      (0 < n → (fill n i slots cur).2 = i + n) ∧
      ∀ j, (fill n i slots cur).1[j]? =
        if i ≤ j ∧ j < i + n then some ⟨some j, false⟩ else slots[j]? := by
  induction n generalizing i cur slots with
  | zero => exact ⟨rfl, fun h => absurd h (lt_irrefl 0), fun j => by simp [fill]⟩
  | succ n ih =>
      have hnext : newCoroutine cur = (i, i + 1) := Prod.ext hcur (congrArg (· + 1) hcur)
      have hcur' : (newCoroutine (i + 1)).1 = i + 1 := by simp [newCoroutine]
      obtain ⟨hlen', hcount, hget⟩ := ih (slots.set i ⟨some i, false⟩) hcur'
        (by rw [List.length_set]; omega)
      simp only [fill, hnext]
      refine ⟨hlen'.trans (List.length_set ..), fun _ => ?_, fun j => ?_⟩
      · cases n with
        | zero => rfl
        | succ n =>
            rw [hcount (Nat.succ_pos n)]
            omega
      · rw [hget j, List.getElem?_set]
        by_cases hj : i = j
        · subst hj
          rw [if_neg (by omega), if_pos rfl, if_pos (by omega), if_pos (by omega)]
        · rw [if_neg hj]
          exact if_congr (by omega) rfl rfl

theorem exclusive_new (curCoroutineId poolSize : ℕ) : (new curCoroutineId poolSize).Exclusive := by
  obtain ⟨hlen, hcount, hget⟩ := fill_spec poolSize
    (List.replicate (poolSize + (newCoroutine curCoroutineId).1) {})
    (rfl : (newCoroutine curCoroutineId).1 = _)
    (by rw [List.length_replicate]; omega)
  rw [List.length_replicate] at hlen
  refine ⟨List.nodup_nil, fun c hindex hc => ⟨false, ?_⟩, nofun, ?_⟩
  · cases poolSize with
    | zero =>
        have hc' : c < curCoroutineId := hc
        have hindex' : (if curCoroutineId = 0 then 1 else curCoroutineId) ≤ c := hindex
        split_ifs at hindex' <;> omega
    | succ n =>
        have hc' : c < (newCoroutine curCoroutineId).1 + (n + 1) := (hcount (Nat.succ_pos n)) ▸ hc
        exact (hget c).trans (if_pos ⟨hindex, hc'⟩)
  · have hsize : (new curCoroutineId poolSize).freeCors.length =
        poolSize + (newCoroutine curCoroutineId).1 := hlen
    have hindex : curCoroutineId ≤ (newCoroutine curCoroutineId).1 := by
      rw [newCoroutine]
      split_ifs <;> omega
    rw [hsize]
    cases poolSize with
    | zero => exact ⟨Nat.zero_le _, hindex.trans (Nat.le_add_left _ _)⟩
    | succ n =>
        have hcur : (new curCoroutineId (n + 1)).curCoroutineId =
            (newCoroutine curCoroutineId).1 + (n + 1) := hcount (Nat.succ_pos n)
        have hpool : (new curCoroutineId (n + 1)).poolSize = n + 1 := rfl
        omega

theorem Exclusive.find (h : p.Exclusive) {n i j : ℕ} (hi : p.index ≤ i)
    (hn : i + n ≤ p.poolSize) (hj : i ≤ j ∧ j < i + n) (hfree : p.isFree j = true) :
    ∃ j, p.index ≤ j ∧ j < p.poolSize ∧ p.isFree j = true ∧ p.find n i = some (some j) := by
  induction n generalizing i with
  | zero => omega
  | succ n ih =>
      obtain ⟨b, hslot⟩ := h.own i hi (by have := h.inBounds; omega)
      cases hhere : p.isFree i with
      | true =>
          refine ⟨i, hi, by omega, hhere, ?_⟩
          simp only [CoroutinePool.find, hslot, hhere, if_true]
      | false =>
          have hne : i ≠ j := by
            rintro rfl
            cases hhere.symm.trans hfree
          obtain ⟨j', hindex, hsize, hfree', hfind⟩ :=
            ih (i := i + 1) (by omega) (by omega) (by omega)
          refine ⟨j', hindex, hsize, hfree', ?_⟩
          simp only [CoroutinePool.find, hslot, hhere, Bool.false_eq_true, if_false, hfind]

theorem getElem?_mark (p : CoroutinePool) (i j : ℕ) (second : Bool) :
    (p.mark i second).freeCors[j]? =
      if i = j then (p.freeCors[j]?).map fun slot => { slot with second := second }
      else p.freeCors[j]? := by
  rw [mark, List.getElem?_modify]
  split_ifs with h
  · rfl
  · simp

/-- The slot `j` is marked in use. -/
def inUse (p : CoroutinePool) (j : ℕ) : Bool := (p.freeCors[j]?).any (·.second)

def usedSlots (p : CoroutinePool) : List ℕ :=
  (List.range p.freeCors.length).filter p.inUse

theorem mem_usedSlots (p : CoroutinePool) (j : ℕ) : j ∈ p.usedSlots ↔ p.inUse j = true := by
  rw [usedSlots, List.mem_filter, List.mem_range, and_iff_right_iff_imp]
  intro hused
  by_contra hge
  rw [inUse, List.getElem?_eq_none (by omega)] at hused
  cases hused

theorem nodup_usedSlots (p : CoroutinePool) : p.usedSlots.Nodup :=
  List.nodup_range.filter _

theorem inUse_mark {p : CoroutinePool} {i : ℕ} {slot : CoroutineSlot}
    (hslot : p.freeCors[i]? = some slot) (j : ℕ) :
    (p.mark i true).inUse j = true ↔ j = i ∨ p.inUse j = true := by
  rw [inUse, getElem?_mark, inUse]
  by_cases hij : i = j
  · subst hij
    simp [hslot]
  · rw [if_neg hij, or_iff_right (Ne.symm hij)]

theorem Exclusive.find_eq_none {p : CoroutinePool} (h : p.Exclusive)
    (hnone : ∀ i < p.poolSize, p.index ≤ i → p.isFree i = false) {n i : ℕ} (hi : p.index ≤ i)
    (hn : i + n ≤ p.poolSize) : p.find n i = some none := by
  induction n generalizing i with
  | zero => rfl
  | succ n ih =>
      obtain ⟨b, hslot⟩ := h.own i hi (by have := h.inBounds; omega)
      have hbusy := hnone i (by omega) hi
      simp only [CoroutinePool.find, hslot, hbusy, Bool.false_eq_true, if_false]
      exact ih (by omega) (by omega)

theorem getElem?_grow {n i j : ℕ} {p p' : CoroutinePool} (h : grow n i p = some p')
    (hj : i + n ≤ j) (hlen : j < p.freeCors.length) : p'.freeCors[j]? = p.freeCors[j]? := by
  induction n generalizing i p with
  | zero =>
      cases h
      rfl
  | succ n ih =>
      simp only [grow] at h
      split_ifs at h
      have hlen' : j <
          (p.freeCors.set i ⟨some (newCoroutine p.curCoroutineId).1, false⟩).length := by
        rwa [List.length_set]
      rw [ih h (by omega) (by rw [List.length_append]; omega), List.getElem?_append_left hlen',
        List.getElem?_set_ne (by omega)]

/-- A request that finds a free slot marks it and hands out its coroutine. -/
theorem Exclusive.getCoroutineInstanse_eq (h : p.Exclusive)
    (hfree : p.FindsFree .getCoroutineInstanse) :
    ∃ i, p.index ≤ i ∧ i < p.poolSize ∧ p.freeCors[i]? = some ⟨some i, false⟩ ∧
      p.getCoroutineInstanse =
        some ({ p.mark i true with handedOut := i :: p.handedOut }, some i) := by
  obtain ⟨j, hsize, hindex, hj⟩ := hfree
  obtain ⟨i, hindex', hsize', hi, hfind⟩ := h.find (n := p.poolSize - p.index) (le_refl p.index)
    (by omega) ⟨hindex, by omega⟩ hj
  obtain ⟨b, hslot⟩ := h.own i hindex' (by have := h.inBounds; omega)
  have hb : b = false ∧ p.inCoFunc i = false := by
    simpa [isFree, hslot, and_comm] using hi
  obtain ⟨rfl, _⟩ := hb
  refine ⟨i, hindex', hsize', hslot, ?_⟩
  have hheld : (p.mark i true).freeCors[i]? = some ⟨some i, true⟩ := by
    rw [getElem?_mark, if_pos rfl, hslot]
    rfl
  rw [CoroutinePool.getCoroutineInstanse, hfind]
  simp only [Option.bind_eq_bind, Option.bind_some, handOut, hheld, Option.map_some]
  rfl

theorem Exclusive.getCoroutineInstanse {out : Option ℕ} (h : p.Exclusive)
    (hfree : p.FindsFree .getCoroutineInstanse)
    (hget : p.getCoroutineInstanse = some (p', out)) : p'.Exclusive := by
  obtain ⟨i, _, _, hslot, hgot⟩ := h.getCoroutineInstanse_eq hfree
  rw [hgot] at hget
  cases hget
  have hnew : i ∉ p.handedOut := fun hmem => by cases hslot.symm.trans (h.inUse i hmem)
  refine ⟨List.nodup_cons.2 ⟨hnew, h.nodup⟩, fun c hindex hc => ?_, fun c hc => ?_, ?_⟩
  · obtain ⟨b, hb⟩ := h.own c hindex hc
    rw [getElem?_mark, hb]
    split_ifs <;> exact ⟨_, rfl⟩
  · rw [getElem?_mark]
    rcases List.mem_cons.1 hc with rfl | hc
    · rw [if_pos rfl, hslot]
      rfl
    · rw [if_neg (by rintro rfl; exact hnew hc)]
      exact h.inUse c hc
  · exact ⟨h.inBounds.1, h.inBounds.2.trans (by simp [mark])⟩

/-- Returning a coroutine frees its slot, and no other one. -/
theorem Exclusive.returnCoroutine {c : ℕ} (h : p.Exclusive)
    (hreturn : p.returnCoroutine c = some p') : p'.Exclusive := by
  unfold CoroutinePool.returnCoroutine at hreturn
  split_ifs at hreturn
  cases hreturn
  refine ⟨h.nodup.erase c, fun d hindex hd => ?_, fun d hd => ?_, ?_⟩
  · obtain ⟨b, hb⟩ := h.own d hindex hd
    rw [getElem?_mark, hb]
    split_ifs <;> exact ⟨_, rfl⟩
  · obtain ⟨hne, hmem⟩ := (h.nodup.mem_erase_iff).1 hd
    rw [getElem?_mark, if_neg (Ne.symm hne)]
    exact h.inUse d hmem
  · exact ⟨h.inBounds.1, h.inBounds.2.trans (by simp [mark])⟩

theorem Exclusive.step {op : PoolOp} {out : Option ℕ} (h : p.Exclusive) (hfree : p.FindsFree op)
    (hstep : machine.step p op = some (p', out)) : p'.Exclusive := by
  cases op with
  | getCoroutineInstanse => exact h.getCoroutineInstanse hfree hstep
  | returnCoroutine c =>
      simp only [machine, CoroutinePool.step] at hstep
      split_ifs at hstep
      rcases Option.map_eq_some_iff.1 hstep with ⟨q, hreturn, heq⟩
      cases heq
      exact h.returnCoroutine hreturn
  | run c b =>
      simp only [machine, CoroutinePool.step] at hstep
      split_ifs at hstep
      cases hstep
      exact ⟨h.nodup, h.own, h.inUse, h.inBounds⟩

/-- In every run in which each request finds a free slot, no coroutine has two holders. -/
theorem exclusive_of_run {curCoroutineId poolSize : ℕ} {ops : List PoolOp} {outs : List (Option ℕ)}
    (hfree : machine.Meets FindsFree (new curCoroutineId poolSize) ops)
    (hrun : machine.run (new curCoroutineId poolSize) ops = some (p, outs)) : p.Exclusive :=
  hfree.run_invariant (fun _ _ _ _ hp hok hstep => hp.step hok hstep)
    (exclusive_new curCoroutineId poolSize) hrun

/-- A coroutine that is returned is handed out again. -/
theorem exclusive_of_run_returned : ∃ p, (machine.run (new 0 4) [.getCoroutineInstanse, .run 1 true,
    .getCoroutineInstanse, .run 1 false, .returnCoroutine 1, .getCoroutineInstanse]).map Prod.fst =
      some p ∧ p.Exclusive := by
  have hrun : (machine.run (new 0 4) [.getCoroutineInstanse, .run 1 true,
      .getCoroutineInstanse, .run 1 false, .returnCoroutine 1, .getCoroutineInstanse]).map
        Prod.snd = some [some 1, none, some 2, none, none, some 1] := by decide +kernel
  rcases Option.map_eq_some_iff.1 hrun with ⟨⟨p, outs⟩, hrun, rfl⟩
  exact ⟨p, by rw [hrun]; rfl, exclusive_of_run (by decide +kernel) hrun⟩

/-- A pool of four coroutines is made larger by the fourth request. The coroutine 1 loses
its slot, and the coroutine 4 is handed out twice. -/
theorem not_exclusive_grown : ∃ p outs,
    machine.run (new 0 4) (List.replicate 6 .getCoroutineInstanse) = some (p, outs) ∧
      outs = [some 1, some 2, some 3, some 4, some 6, some 4] ∧
      p.handedOut = [4, 6, 4, 3, 2, 1] ∧ p.freeCors[1]? = some ⟨some 6, true⟩ ∧ ¬ p.Exclusive := by
  have hrun : (machine.run (new 0 4) (List.replicate 6 .getCoroutineInstanse)).map
      (fun r => (r.2, r.1.handedOut, r.1.freeCors[1]?)) =
      some ([some 1, some 2, some 3, some 4, some 6, some 4], [4, 6, 4, 3, 2, 1],
        some ⟨some 6, true⟩) := by decide +kernel
  rcases Option.map_eq_some_iff.1 hrun with ⟨⟨p, outs⟩, hrun, heq⟩
  obtain ⟨houts, heq⟩ := Prod.mk.inj heq
  obtain ⟨hheld, hslot⟩ := Prod.mk.inj heq
  refine ⟨p, outs, hrun, houts, hheld, hslot, fun hexclusive => ?_⟩
  have hnodup := hexclusive.nodup
  dsimp only at hheld
  rw [hheld] at hnodup
  exact absurd hnodup (by decide)

end CoroutinePool

end Rocket
