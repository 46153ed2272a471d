import Rocket.Foundation.Block
import Rocket.Foundation.Machine
import Rocket.Foundation.Word

/-!
# FdEventGroup

The group keeps a pointer to an `FdEvent` for every descriptor, and grows when it is asked
for a descriptor beyond its end. What it is for is a table in which every descriptor has an
event of its own from the start; the group is a part of this table that has been filled in
so far (`machine_refines`).

An `FdEvent` is pointed to by its number in the order in which the group has made them.
Its `m_fd` is set by its constructor and by nothing else; its callbacks are left out. Each
call holds the mutex of the group, so it is one step.
-/

namespace Rocket

open Foundation

/-- `FdEventGroup`: the pointers in `m_fd_group`, and the `m_fd` of each object made. -/
structure FdEventGroup where
  fdGroup : List ℕ := []
  fds : List ℤ := []
  deriving DecidableEq, Repr

namespace FdEventGroup

/-- `m_fd_group.push_back(new FdEvent(fd))` -/
def pushBack (g : FdEventGroup) (fd : ℤ) : FdEventGroup where
  fdGroup := g.fdGroup ++ [g.fds.length]
  fds := g.fds ++ [fd]

/-- The `for` loop that makes the events, with `i` for `n` iterations. -/
def fill (i : ℕ) : ℕ → FdEventGroup → FdEventGroup
  | 0, g => g
  | n + 1, g => fill (i + 1) n (g.pushBack i)

/-- `FdEventGroup::FdEventGroup` -/
def new (size : ℕ) : FdEventGroup := fill 0 size {}

/-- `int(fd * 1.5)`. The product is exact, and the conversion is undefined outside of
the range of `int`. -/
def newSize (fd : ℤ) : Option ℤ :=
  let size := (fd * 3).tdiv 2
  if -2 ^ 31 ≤ size ∧ size < 2 ^ 31 then some size else none

/-- `FdEventGroup::getFdEvent`. The test compares `fd` with a `size_t`. -/
def getFdEvent (g : FdEventGroup) (fd : ℤ) : Option (FdEventGroup × ℕ) :=
  if sizeT fd < g.fdGroup.length then (readCell g.fdGroup fd).map fun event => (g, event)
  else do
    let newSize ← newSize fd
    let g := fill g.fdGroup.length (newSize - g.fdGroup.length).toNat g
    (readCell g.fdGroup fd).map fun event => (g, event)

/-- `FdEvent::getFd` -/
def getFd (g : FdEventGroup) (event : ℕ) : Option ℤ := g.fds[event]?

def machine : Machine FdEventGroup ℤ ℕ := ⟨getFdEvent⟩

/-- The table that the group is a part of: every descriptor below `limit` has its event.
The state is the descriptors that have been asked for. -/
def tableMachine (limit : ℤ) : Machine (List ℕ) ℤ ℕ where
  step seen fd := if 0 ≤ fd ∧ fd < limit then some (seen ++ [fd.toNat], fd.toNat) else none

/-- The group that holds the events of the first `n` descriptors. -/
def filled (n : ℕ) : FdEventGroup where
  fdGroup := List.range n
  fds := (List.range n).map Nat.cast

@[simp] theorem length_fdGroup_filled (n : ℕ) : (filled n).fdGroup.length = n := List.length_range

theorem pushBack_filled (n : ℕ) : (filled n).pushBack n = filled (n + 1) := by
  simp [pushBack, filled, List.range_succ]

theorem fill_filled (i n : ℕ) : fill i n (filled i) = filled (i + n) := by
  induction n generalizing i with
  | zero => rfl
  | succ n ih =>
      rw [fill, pushBack_filled, ih, Nat.add_right_comm]
      rfl

theorem new_eq_filled (size : ℕ) : new size = filled size :=
  (fill_filled 0 size).trans (congrArg filled (Nat.zero_add size))

@[simp] theorem getFd_filled {n fd : ℕ} (h : fd < n) : (filled n).getFd fd = some (fd : ℤ) := by
  simp [getFd, filled, h]

theorem readCell_filled {n fd : ℕ} (h : fd < n) : readCell (filled n).fdGroup fd = some fd := by
  simp [readCell, filled, h]

theorem newSize_natCast {fd : ℕ} (hfd : fd * 3 < 2 ^ 32) :
    newSize fd = some ((fd * 3 / 2 : ℕ) : ℤ) := by
  have hsize : ((fd : ℤ) * 3).tdiv 2 = ((fd * 3 / 2 : ℕ) : ℤ) := by
    rw [Int.tdiv_eq_ediv_of_nonneg (by omega)]
    push_cast
    rfl
  rw [newSize, hsize]
  exact if_pos (by omega)

section Filled

variable {n : ℕ}

theorem getFdEvent_of_lt {fd : ℕ} (hn : n < 2 ^ 31) (hfd : fd < n) :
    (filled n).getFdEvent fd = some (filled n, fd) := by
  have hlt : sizeT fd < (filled n).fdGroup.length := by
    rw [sizeT_eq_self (by omega) (by omega), length_fdGroup_filled]
    exact_mod_cast hfd
  rw [getFdEvent, if_pos hlt, readCell_filled hfd]
  rfl

/-- A descriptor beyond the end makes the group grow beyond it. -/
theorem getFdEvent_of_le {fd : ℕ} (hpos : 2 ≤ n) (hle : n ≤ fd) (hfd : fd * 3 < 2 ^ 32) :
    (filled n).getFdEvent fd = some (filled (fd * 3 / 2), fd) := by
  have hnot : ¬ sizeT fd < (filled n).fdGroup.length := by
    rw [sizeT_eq_self (by omega) (by omega), length_fdGroup_filled]
    exact_mod_cast not_lt_of_ge hle
  have hgrown : fill n (((fd * 3 / 2 : ℕ) : ℤ) - n).toNat (filled n) = filled (fd * 3 / 2) := by
    rw [fill_filled]
    congr 1
    omega
  rw [getFdEvent, if_neg hnot, newSize_natCast hfd]
  simp only [Option.bind_eq_bind, Option.bind_some, length_fdGroup_filled, hgrown]
  rw [readCell_filled (by omega)]
  rfl

/-- A call is undefined for a negative descriptor, and for one for which the size that
the group would grow to is no `int`. -/
theorem isSome_getFdEvent_iff (hpos : 2 ≤ n) (hn : n < 2 ^ 31) {fd : ℤ} (hlo : -2 ^ 31 ≤ fd)
    (hhi : fd < 2 ^ 31) :
    ((filled n).getFdEvent fd).isSome ↔ 0 ≤ fd ∧ (fd < n ∨ fd * 3 < 2 ^ 32) := by
  by_cases hneg : fd < 0
  · have hnot : ¬ sizeT fd < (filled n).fdGroup.length := by
      rw [sizeT_eq_add (by omega) hneg, length_fdGroup_filled]
      omega
    have hcell (l : List ℕ) : readCell l fd = none := if_neg (by omega)
    rw [getFdEvent, if_neg hnot]
    refine iff_of_false ?_ fun h => absurd h.1 (by omega)
    cases newSize fd <;> simp [hcell]
  · obtain ⟨k, rfl⟩ := Int.eq_ofNat_of_zero_le (not_lt.1 hneg)
    by_cases hlt : k < n
    · rw [getFdEvent_of_lt hn hlt]
      exact iff_of_true rfl ⟨by omega, Or.inl (by omega)⟩
    · by_cases hfd : k * 3 < 2 ^ 32
      · rw [getFdEvent_of_le hpos (not_lt.1 hlt) hfd]
        exact iff_of_true rfl ⟨by omega, Or.inr (by omega)⟩
      · have hnot : ¬ sizeT k < (filled n).fdGroup.length := by
          rw [sizeT_eq_self (by omega) (by omega), length_fdGroup_filled]
          omega
        have hnone : newSize k = none := by
          rw [newSize, Int.tdiv_eq_ediv_of_nonneg (by omega)]
          exact if_neg (by omega)
        rw [getFdEvent, if_neg hnot, hnone]
        exact iff_of_false nofun fun h => by omega

theorem filled_of_getFdEvent (hpos : 2 ≤ n) (hn : n < 2 ^ 31) {fd : ℤ} (hlo : -2 ^ 31 ≤ fd)
    (hhi : fd < 2 ^ 31) {g : FdEventGroup} {event : ℕ}
    (h : (filled n).getFdEvent fd = some (g, event)) : ∃ m, g = filled m ∧ n ≤ m ∧ m < 2 ^ 31 := by
  obtain ⟨hnonneg, hfits⟩ := (isSome_getFdEvent_iff hpos hn hlo hhi).1 (by rw [h]; rfl)
  obtain ⟨k, rfl⟩ := Int.eq_ofNat_of_zero_le hnonneg
  by_cases hlt : k < n
  · rw [getFdEvent_of_lt hn hlt] at h
    exact ⟨n, (congrArg Prod.fst (Option.some.inj h)).symm, le_rfl, hn⟩
  · rw [getFdEvent_of_le hpos (not_lt.1 hlt) (by omega)] at h
    exact ⟨k * 3 / 2, (congrArg Prod.fst (Option.some.inj h)).symm, by omega, by omega⟩

end Filled

/-- The group has been filled in as far as `n`, beyond its first size and the descriptors
that have been asked for. -/
def Part (size : ℕ) (seen : List ℕ) (g : FdEventGroup) : Prop :=
  ∃ n, g = filled n ∧ size ≤ n ∧ n < 2 ^ 31 ∧ ∀ fd ∈ seen, fd < n

theorem part_new {size : ℕ} (hsize : size < 2 ^ 31) : Part size [] (new size) :=
  ⟨size, new_eq_filled size, le_rfl, hsize, List.forall_mem_nil _⟩

/-- The group gives out the events of the table, and grows when it has to. -/
theorem machine_refines {size : ℕ} (hsize : 2 ≤ size) :
    Machine.Refines (tableMachine (2 ^ 30)) machine (Part size) := by
  rintro seen g fd _ event ⟨n, rfl, hle, hn, hseen⟩ hstep
  obtain ⟨⟨hlo, hhi⟩, heq⟩ := Option.ite_none_right_eq_some.1 hstep
  cases heq
  obtain ⟨k, rfl⟩ := Int.eq_ofNat_of_zero_le hlo
  by_cases hlt : k < n
  · refine ⟨filled n, getFdEvent_of_lt hn hlt, n, rfl, hle, hn, ?_⟩
    rw [List.forall_mem_append, List.forall_mem_singleton]
    exact ⟨hseen, hlt⟩
  · refine ⟨filled (k * 3 / 2), getFdEvent_of_le (by omega) (not_lt.1 hlt) (by omega),
      k * 3 / 2, rfl, by omega, by omega, ?_⟩
    rw [List.forall_mem_append, List.forall_mem_singleton]
    refine ⟨fun fd hfd => ?_, ?_⟩
    · have hfd' := hseen fd hfd
      omega
    · change k < k * 3 / 2
      omega

theorem run_tableMachine {limit : ℤ} {fds : List ℤ} (hfds : ∀ fd ∈ fds, 0 ≤ fd ∧ fd < limit)
    (seen : List ℕ) : (tableMachine limit).run seen fds =
      some (seen ++ fds.map Int.toNat, fds.map Int.toNat) := by
  induction fds generalizing seen with
  | nil => simp
  | cons fd fds ih =>
      obtain ⟨hfd, hrest⟩ := List.forall_mem_cons.1 hfds
      have hstep : (tableMachine limit).step seen fd = some (seen ++ [fd.toNat], fd.toNat) :=
        if_pos hfd
      have hrun := ih hrest (seen ++ [fd.toNat])
      rw [List.append_assoc] at hrun
      exact Machine.run_cons hstep hrun

/-- The calls and the events that they have returned: each event is that of the
descriptor, two calls have returned the same object iff they were for the same descriptor,
and what has been handed out is still in its place. -/
structure Keeps (g : FdEventGroup) (calls : List (ℤ × ℕ)) : Prop where
  getFd_eq : ∀ c ∈ calls, g.getFd c.2 = some c.1
  same_iff : ∀ c ∈ calls, ∀ c' ∈ calls, c.2 = c'.2 ↔ c.1 = c'.1
  kept : ∀ c ∈ calls, readCell g.fdGroup c.1 = some c.2

/-- In every run from the group of size 128, each call indexes inside of the vector, and
the descriptors and the events correspond to each other one by one, for ever. -/
theorem keeps_of_calls {fds : List ℤ} (hfds : ∀ fd ∈ fds, 0 ≤ fd ∧ fd < 2 ^ 30) :
    ∃ g events, machine.run (new 128) fds = some (g, events) ∧ g.Keeps (fds.zip events) := by
  obtain ⟨g, hrun, n, rfl, _, _, hseen⟩ :=
    (machine_refines (by norm_num : 2 ≤ 128)).run (part_new (by norm_num))
      (run_tableMachine hfds [])
  refine ⟨filled n, _, hrun, ?_⟩
  have hcall : ∀ c ∈ fds.zip (fds.map Int.toNat), c.1 = c.2 ∧ c.2 < n := by
    intro c hc
    have hzip : fds.zip (fds.map Int.toNat) = fds.map fun fd => (fd, fd.toNat) := by
      conv_lhs => rw [← List.map_id fds, List.map_map]
      exact List.zip_map'
    obtain ⟨fd, hfd, rfl⟩ := List.mem_map.1 (hzip ▸ hc)
    refine ⟨(Int.toNat_of_nonneg (hfds fd hfd).1).symm, hseen _ ?_⟩
    exact List.mem_append_right _ (List.mem_map_of_mem hfd)
  refine ⟨fun c hc => ?_, fun c hc c' hc' => ?_, fun c hc => ?_⟩
  · rw [getFd_filled (hcall c hc).2, (hcall c hc).1]
  · rw [(hcall c hc).1, (hcall c' hc').1, Nat.cast_inj]
  · rw [(hcall c hc).1, readCell_filled (hcall c hc).2]

/-- Two descriptors beyond the first size, and one of them again. -/
theorem keeps_of_calls_grown :
    ∃ g events, machine.run (new 128) [200, 5, 1000, 200] = some (g, events) ∧
      g.Keeps ([200, 5, 1000, 200].zip events) :=
  keeps_of_calls (by decide)

end FdEventGroup

end Rocket
