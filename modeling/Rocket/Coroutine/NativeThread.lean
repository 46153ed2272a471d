import Rocket.Coroutine.Coroutine
import Rocket.Coroutine.CoctxSwap

/-!
# The coroutines of a thread in memory

The coroutines of `Coroutine` with their contexts and stacks in one memory. The code of a
coroutine may do to the registers what it likes, and may write to its own stack and to what
the coroutines share; nobody writes to an `m_coctx` but `setCallBack` and `coctx_swap`.

A coroutine that calls `coctx_swap` and is switched to later finds the call returned: the
registers that a function keeps for its caller are as they were, and so is its stack,
whatever the other coroutines have done meanwhile (`returned_of_run`). The first switch to
a coroutine enters `CoFunction` on an aligned stack, but pushes a word behind the block of
the stack, when this ends at a multiple of 16 (`entered_of_run`). `represents_swap` connects
the switch here with the one of `CorThread`, where a context is a place in a script.
-/

namespace Rocket

open Foundation

/-- Who may write to a byte: nobody, as it belongs to the `m_coctx` of a coroutine; the code
of one coroutine, on its stack; or all of them. -/
inductive Owner (ι : Type) where
  | coctx (co : CorPtr ι)
  | stack (co : CorPtr ι)
  | shared
  deriving DecidableEq, Repr

/-- Where the coroutines of a thread and their stacks are: the address of the object of a
coroutine and of its `m_coctx`, its `m_stack_sp` and its `m_stack_size`. -/
structure StackLayout (ι : Type) where
  this : CorPtr ι → Address
  coctx : CorPtr ι → Address
  stackSp : ι → Address
  stackSize : ι → ℕ
  owner : Address → Owner ι
  owner_coctx : ∀ co x, InBlock (coctx co) 112 x → owner x = .coctx co
  coFunction : Address

/-- A thread: the processor, and the coroutine whose code it executes. -/
structure NativeThread (ι : Type) where
  cpu : Cpu
  current : CorPtr ι

/-- What happens next: the coroutine that runs leaves other registers and writes some bytes;
it calls `coctx_swap` to go on with another one, to be continued at `retAddr`; or the
context of a coroutine is set up. -/
inductive NativeOp (ι : Type) where
  | execute (reg : Reg → BitVec 64) (bytes : List (Address × BitVec 8))
  | swap (co : CorPtr ι) (retAddr : Address)
  | setCallBack (k : ι)

namespace StackLayout

variable {ι : Type} (L : StackLayout ι)

/-- The stack pointer of a coroutine that has not been entered: the end of its stack, rounded
down to a multiple of 16. -/
def top (k : ι) : Address := (L.stackSp k + BitVec.ofNat 64 (L.stackSize k)) &&& -16

/-- The word at `a` is on the stack of `co`. -/
def OnStack (co : CorPtr ι) (a : Address) : Prop :=
  ∀ i < 8, L.owner (a + BitVec.ofNat 64 i) = .stack co

/-- The context that `setCallBack` sets up. -/
def fresh (k : ι) : CoctxRegs :=
  Function.update (Function.update (Function.update (Function.update (fun _ => 0)
    kRSP (L.top k)) kRBP (L.top k)) kRETAddr L.coFunction) kRDI (L.this (.cor k))

/-- What `setCallBack` does to the context: `memset`, and then four words. -/
def setCallBack (m : Memory) (k : ι) : Memory :=
  writeCoctx (writeCoctx m (L.coctx (.cor k)) (fun _ => 0) coctxSlots) (L.coctx (.cor k))
    (L.fresh k) [kRSP, kRBP, kRETAddr, kRDI]

end StackLayout

/-- A `call` of `coctx_swap`: the arguments, and the return address on the stack. -/
def Cpu.call (c : Cpu) (co co' retAddr : Address) : Cpu where
  reg := Function.update (Function.update (Function.update c.reg .rdi co) .rsi co') .rsp
    (c.reg .rsp - 8)
  rip := c.rip
  mem := c.mem.write (c.reg .rsp - 8) retAddr

namespace NativeThread

variable {ι : Type} [DecidableEq ι]

instance (L : StackLayout ι) (co : CorPtr ι) (a : Address) : Decidable (L.OnStack co a) :=
  inferInstanceAs (Decidable (∀ i < 8, _ = _))

def Writable (L : StackLayout ι) (co : CorPtr ι) (bytes : List (Address × BitVec 8)) : Prop :=
  ∀ p ∈ bytes, L.owner p.1 = .shared ∨ L.owner p.1 = .stack co

-- The bytes are gone through, not the addresses.
instance (L : StackLayout ι) (co : CorPtr ι) (bytes : List (Address × BitVec 8)) :
    Decidable (Writable L co bytes) :=
  List.decidableBAll _ bytes

/-- The next step. It is not defined when code writes where it may not, or when the word
that `coctx_swap` reads or pushes is not on the stack of the coroutine that it belongs to. -/
def step (L : StackLayout ι) (s : NativeThread ι) : NativeOp ι → Option (NativeThread ι × Unit)
  | .execute reg bytes =>
      if Writable L s.current bytes then
        some ({ s with cpu.reg := reg, cpu.mem := s.cpu.mem.writeBytes bytes }, ())
      else none
  | .swap co retAddr =>
      if co ≠ s.current ∧ L.OnStack s.current (s.cpu.reg .rsp - 8) ∧
          L.OnStack co (readCoctx s.cpu.mem (L.coctx co) kRSP) then
        some ({ cpu := (s.cpu.call (L.coctx s.current) (L.coctx co) retAddr).execAll coctxSwapCode
                current := co }, ())
      else none
  | .setCallBack k =>
      if L.OnStack (.cor k) (L.top k) then
        some ({ s with cpu.mem := L.setCallBack s.cpu.mem k }, ())
      else none

def machine (L : StackLayout ι) : Machine (NativeThread ι) (NativeOp ι) Unit := ⟨step L⟩

/-- The context of `co` is stored: its words are `f`, and the stack pointer is on its own
stack. -/
structure Stored (L : StackLayout ι) (s : NativeThread ι) (co : CorPtr ι) (f : CoctxRegs) :
    Prop where
  coctx_eq : readCoctx s.cpu.mem (L.coctx co) = f
  onStack : L.OnStack co (f kRSP)

end NativeThread

section Layout

variable {ι : Type} {L : StackLayout ι} {co co' : CorPtr ι} {a x : Address}

theorem StackLayout.OnStack.owner_eq (h : L.OnStack co a) (hx : InBlock a 8 x) :
    L.owner x = .stack co := by
  obtain ⟨i, hi, rfl⟩ := hx.exists_eq_add
  exact h i hi

namespace StackLayout

theorem separate_coctx (h : co ≠ co') : Separate (L.coctx co) 112 (L.coctx co') 112 := by
  intro x hx hx'
  have heq := (L.owner_coctx co x hx).symm.trans (L.owner_coctx co' x hx')
  cases heq
  exact h rfl

theorem OnStack.separate_coctx (h : L.OnStack co' a) : Separate (L.coctx co) 112 a 8 := by
  intro x hx hx'
  cases (L.owner_coctx co x hx).symm.trans (h.owner_eq hx')

theorem OnStack.separate {b : Address} (h : L.OnStack co a) (h' : L.OnStack co' b)
    (hne : co ≠ co') : Separate a 8 b 8 := by
  intro x hx hx'
  cases (h.owner_eq hx).symm.trans (h'.owner_eq hx')
  exact hne rfl

end StackLayout

end Layout

namespace NativeThread

variable {ι : Type} [DecidableEq ι] {L : StackLayout ι} {s s' : NativeThread ι}
  {co : CorPtr ι} {f : CoctxRegs}

/-- What a call of `coctx_swap` stores, in terms of the registers before the call. -/
def frame (L : StackLayout ι) (s : NativeThread ι) (co : CorPtr ι) (retAddr : Address) :
    CoctxRegs :=
  (s.cpu.call (L.coctx s.current) (L.coctx co) retAddr).coctx

omit [DecidableEq ι] in
theorem Stored.congr (h : Stored L s co f)
    (hmem : ∀ x, L.owner x = .coctx co → s'.cpu.mem x = s.cpu.mem x) : Stored L s' co f := by
  refine ⟨?_, h.onStack⟩
  rw [← h.coctx_eq]
  funext i
  refine Memory.read_congr fun x hx => hmem x (L.owner_coctx co x (inBlock_of_slot hx))

structure Switched (L : StackLayout ι) (s s' : NativeThread ι) (co : CorPtr ι)
    (retAddr : Address) (f : CoctxRegs) : Prop where
  current_eq : s'.current = co
  reg_eq : s'.cpu.reg = f.loaded (Function.update
    (s.cpu.call (L.coctx s.current) (L.coctx co) retAddr).reg .rax 0)
  rip_eq : s'.cpu.rip = f kRETAddr
  stored : Stored L s' s.current (frame L s co retAddr)
  push_eq : s'.cpu.mem.read (f kRSP) = f kRETAddr
  mem_eq : ∀ x, ¬ InBlock (L.coctx s.current) 112 x → ¬ InBlock (f kRSP) 8 x →
    s'.cpu.mem x = s.cpu.mem.write (s.cpu.reg .rsp - 8) retAddr x

theorem switched_of_step {retAddr : Address} (h : step L s (.swap co retAddr) = some (s', ())) :
    co ≠ s.current ∧ L.OnStack s.current (s.cpu.reg .rsp - 8) ∧
      L.OnStack co (readCoctx s.cpu.mem (L.coctx co) kRSP) ∧
      Switched L s s' co retAddr (readCoctx s.cpu.mem (L.coctx co)) := by
  obtain ⟨⟨hne, hcall, hpush⟩, heq⟩ := Option.ite_none_right_eq_some.1 h
  cases heq
  refine ⟨hne, hcall, hpush, ?_⟩
  generalize hf : readCoctx s.cpu.mem (L.coctx co) = f at hpush ⊢
  have hcoctx : readCoctx (s.cpu.call (L.coctx s.current) (L.coctx co) retAddr).mem
      (L.coctx co) = f := by
    rw [← hf]
    funext i
    exact Memory.read_write_of_separate fun x hx => hcall.separate_coctx x (inBlock_of_slot hx)
  have hswap := swapped_coctxSwap
    (c := s.cpu.call (L.coctx s.current) (L.coctx co) retAddr) hcoctx
    (StackLayout.separate_coctx hne.symm) hcall.separate_coctx hpush.separate_coctx
    hpush.separate_coctx
  exact ⟨rfl, hswap.reg_eq, hswap.rip_eq, ⟨hswap.coctx_eq, hcall⟩, hswap.slot_eq, hswap.mem_eq⟩

/-- A coroutine that does not run: its context is stored, and its stack is that of `m`. -/
structure Suspended (L : StackLayout ι) (s : NativeThread ι) (k : CorPtr ι) (f : CoctxRegs)
    (m : Memory) : Prop where
  current_ne : s.current ≠ k
  stored : Stored L s k f
  stack_eq : ∀ x, L.owner x = .stack k → s.cpu.mem x = m x

/-- An operation that does not concern the coroutine `k`, unless its own code is executed. -/
def Spares (k : CorPtr ι) : NativeOp ι → Prop
  | .execute _ _ => True
  | .swap co _ => co ≠ k
  | .setCallBack k' => .cor k' ≠ k

section Suspended

variable {k : CorPtr ι} {m : Memory}

omit [DecidableEq ι] in
theorem Suspended.of_mem_eq (h : Suspended L s k f m) (hcurrent : s'.current ≠ k)
    (hmem : ∀ x, L.owner x = .coctx k ∨ L.owner x = .stack k → s'.cpu.mem x = s.cpu.mem x) :
    Suspended L s' k f m where
  current_ne := hcurrent
  stored := h.stored.congr fun x hx => hmem x (Or.inl hx)
  stack_eq x hx := (hmem x (Or.inr hx)).trans (h.stack_eq x hx)

theorem Suspended.step (h : Suspended L s k f m) {op : NativeOp ι} (hop : Spares k op)
    (hstep : NativeThread.step L s op = some (s', ())) : Suspended L s' k f m := by
  cases op with
  | execute reg bytes =>
      obtain ⟨hwritable, heq⟩ := Option.ite_none_right_eq_some.1 hstep
      cases heq
      refine h.of_mem_eq h.current_ne fun x hx => Memory.writeBytes_of_ne fun p hp hpx => ?_
      subst hpx
      rcases hwritable p hp with hshared | hstack <;> rcases hx with hx | hx
      · cases hshared.symm.trans hx
      · cases hshared.symm.trans hx
      · cases hstack.symm.trans hx
      · cases hstack.symm.trans hx
        exact h.current_ne rfl
  | swap co retAddr =>
      obtain ⟨hne, hcall, hpush, hswitched⟩ := switched_of_step hstep
      have hcurrent : s'.current ≠ k := by
        rw [hswitched.current_eq]
        exact hop
      refine h.of_mem_eq hcurrent fun x hx => ?_
      have hcoctx : ¬ InBlock (L.coctx s.current) 112 x := by
        intro hblock
        have howner := L.owner_coctx _ x hblock
        rcases hx with hx | hx
        · cases howner.symm.trans hx
          exact h.current_ne rfl
        · cases howner.symm.trans hx
      have hstack {co : CorPtr ι} {a : Address} (ha : L.OnStack co a) (hne : co ≠ k) :
          ¬ InBlock a 8 x := by
        intro hblock
        have howner := ha.owner_eq hblock
        rcases hx with hx | hx
        · cases howner.symm.trans hx
        · cases howner.symm.trans hx
          exact hne rfl
      exact (hswitched.mem_eq x hcoctx (hstack hpush hop)).trans
        (Memory.write_of_not_inBlock (hstack hcall h.current_ne))
  | setCallBack k' =>
      obtain ⟨_, heq⟩ := Option.ite_none_right_eq_some.1 hstep
      cases heq
      refine h.of_mem_eq h.current_ne fun x hx => ?_
      have hblock : ¬ InBlock (L.coctx (.cor k')) 112 x := by
        intro hblock
        have howner := L.owner_coctx _ x hblock
        rcases hx with hx | hx
        · cases howner.symm.trans hx
          exact hop rfl
        · cases howner.symm.trans hx
      exact (writeCoctx_of_not_inBlock hblock).trans (writeCoctx_of_not_inBlock hblock)

theorem Suspended.run (h : Suspended L s k f m) {ops : List (NativeOp ι)} {os : List Unit}
    (hops : ∀ op ∈ ops, Spares k op) (hrun : (machine L).run s ops = some (s', os)) :
    Suspended L s' k f m :=
  (Machine.run_forall (I := fun s => Suspended L s k f m) (P := fun _ => True)
    (fun _ _ _ _ hs hop hstep => ⟨hs.step hop hstep, trivial⟩) hops h hrun).1

/-- A coroutine that is suspended can be switched to from any other one whose stack has room
for a return address. -/
theorem Suspended.exists_switched (h : Suspended L s k f m)
    (hcall : L.OnStack s.current (s.cpu.reg .rsp - 8)) (retAddr : Address) :
    ∃ s', NativeThread.step L s (.swap k retAddr) = some (s', ()) ∧
      Switched L s s' k retAddr f := by
  have hpush : L.OnStack k (readCoctx s.cpu.mem (L.coctx k) kRSP) := by
    rw [h.stored.coctx_eq]
    exact h.stored.onStack
  have hstep : NativeThread.step L s (.swap k retAddr) = some (_, ()) :=
    if_pos ⟨h.current_ne.symm, hcall, hpush⟩
  refine ⟨_, hstep, ?_⟩
  have hswitched := (switched_of_step hstep).2.2.2
  rwa [h.stored.coctx_eq] at hswitched

omit [DecidableEq ι] in
theorem Suspended.stack_eq_of_switched (h : Suspended L s k f m) {retAddr : Address}
    (hcall : L.OnStack s.current (s.cpu.reg .rsp - 8))
    (hswitched : Switched L s s' k retAddr f) {x : Address} (hx : L.owner x = .stack k)
    (hslot : ¬ InBlock (f kRSP) 8 x) : s'.cpu.mem x = m x := by
  have hcoctx : ¬ InBlock (L.coctx s.current) 112 x := by
    intro hblock
    cases (L.owner_coctx _ x hblock).symm.trans hx
  have hret : ¬ InBlock (s.cpu.reg .rsp - 8) 8 x := by
    intro hblock
    cases (hcall.owner_eq hblock).symm.trans hx
    exact h.current_ne rfl
  exact (hswitched.mem_eq x hcoctx hslot).trans
    ((Memory.write_of_not_inBlock hret).trans (h.stack_eq x hx))

end Suspended

section OneCoroutine

def oneCoroutine : StackLayout Unit where
  this := fun
    | .main => 0xff0
    | .cor _ => 0x1ff0
  coctx := fun
    | .main => 0x1000
    | .cor _ => 0x2000
  stackSp _ := 0x4000
  stackSize _ := 256
  owner x :=
    if InBlock 0x1000 112 x then .coctx .main
    else if InBlock 0x2000 112 x then .coctx (.cor ())
    else if InBlock 0x4000 264 x then .stack (.cor ())
    else if InBlock 0x8000 4096 x then .stack .main
    else .shared
  owner_coctx co x hx := by
    cases co with
    | main => exact if_pos hx
    | cor k =>
        have hmain : ¬ InBlock 0x1000 112 x := by
          simp only [InBlock] at hx ⊢
          bv_omega
        exact (if_neg hmain).trans (if_pos hx)
  coFunction := 0x400100

def atMain : NativeThread Unit where
  cpu := { reg := fun r => if r = .rsp then 0x8ff0 else 7, rip := 0x400000, mem := fun _ => 0 }
  current := .main

/-- `CoFunction` saves a register on its stack and clears it. -/
def pushRbp : NativeOp Unit :=
  .execute (fun r => if r = .rsp then 0x4100 else 0) [(0x4100, 3)]

end OneCoroutine

/-- The call of `coctx_swap` that the thread `s` makes, to be continued at `retAddr`, has
returned in `t`: the registers are as they were, but for the arguments and those that are
not kept, and so is the stack above the return address. -/
structure Returned (L : StackLayout ι) (s t : NativeThread ι) (retAddr : Address) : Prop where
  current_eq : t.current = s.current
  rip_eq : t.cpu.rip = retAddr
  reg_eq : ∀ r, r ∉ [Reg.rax, .rdi, .rsi, .r10, .r11] → t.cpu.reg r = s.cpu.reg r
  stack_eq : ∀ x, L.owner x = .stack s.current → ¬ InBlock (s.cpu.reg .rsp - 8) 8 x →
    t.cpu.mem x = s.cpu.mem x

/-- A coroutine that has switched to another one, and that the others have not touched
since, is suspended. -/
theorem suspended_of_run {co : CorPtr ι} {retAddr : Address} {ops : List (NativeOp ι)}
    {os : List Unit} (hops : ∀ op ∈ ops, Spares s.current op)
    (hrun : (machine L).run s (.swap co retAddr :: ops) = some (s', os)) :
    Suspended L s' s.current (frame L s co retAddr)
      (s.cpu.mem.write (s.cpu.reg .rsp - 8) retAddr) := by
  obtain ⟨s₁, o, os', hstep, hrest, -⟩ := (Machine.run_cons_eq_some_iff ..).1 hrun
  obtain ⟨hne, -, hpush, hswitched⟩ := switched_of_step hstep
  refine Suspended.run ⟨?_, hswitched.stored, fun x hx => hswitched.mem_eq x ?_ ?_⟩ hops hrest
  · rw [hswitched.current_eq]
    exact hne
  · intro hblock
    cases (L.owner_coctx _ x hblock).symm.trans hx
  · intro hblock
    cases (hpush.owner_eq hblock).symm.trans hx
    exact hne rfl

/-- A coroutine that has called `coctx_swap` can be switched to, whatever the others have done
meanwhile, and finds that the call has returned. -/
theorem returned_of_run {co : CorPtr ι} {retAddr : Address} {ops : List (NativeOp ι)}
    {os : List Unit} (hops : ∀ op ∈ ops, Spares s.current op)
    (hrun : (machine L).run s (.swap co retAddr :: ops) = some (s', os))
    (hcall : L.OnStack s'.current (s'.cpu.reg .rsp - 8)) (retAddr' : Address) :
    ∃ t, (machine L).step s' (.swap s.current retAddr') = some (t, ()) ∧
      Returned L s t retAddr := by
  have hsuspended := suspended_of_run hops hrun
  obtain ⟨t, hstep, hswitched⟩ := hsuspended.exists_switched hcall retAddr'
  refine ⟨t, hstep, hswitched.current_eq, ?_, fun r hr => ?_, fun x hx hslot => ?_⟩
  · rw [hswitched.rip_eq]
    exact Memory.read_write_self ..
  · rw [hswitched.reg_eq]
    cases r <;>
      simp [frame, Cpu.call, Cpu.coctx, CoctxRegs.loaded, kRSP, kRBP] at hr ⊢
  · exact (hsuspended.stack_eq_of_switched hcall hswitched hx hslot).trans
      (Memory.write_of_not_inBlock hslot)

/-- The main coroutine goes on behind its call. -/
theorem returned_of_run_oneCoroutine :
    ∃ s os₁ s' os₂ t, (machine oneCoroutine).run atMain [.setCallBack ()] = some (s, os₁) ∧
      (machine oneCoroutine).run s [.swap (.cor ()) 0x400010, pushRbp] = some (s', os₂) ∧
      (machine oneCoroutine).step s' (.swap s.current 0x400200) = some (t, ()) ∧
      Returned oneCoroutine s t 0x400010 := by
  have hrun : ((machine oneCoroutine).run atMain
      ([.setCallBack ()] ++ [.swap (.cor ()) 0x400010, pushRbp])).map
        (fun p => decide (oneCoroutine.OnStack p.1.current (p.1.cpu.reg .rsp - 8))) =
      some true := by decide +kernel
  obtain ⟨⟨s', os⟩, hall, hcall⟩ := Option.map_eq_some_iff.1 hrun
  obtain ⟨s, os₁, os₂, hset, hswap, -⟩ := (Machine.run_append_eq_some_iff ..).1 hall
  obtain ⟨t, hstep, hreturned⟩ :=
    returned_of_run (by simp [pushRbp, Spares]) hswap (of_decide_eq_true hcall) 0x400200
  exact ⟨s, os₁, s', os₂, t, hset, hswap, hstep, hreturned⟩

section Enter

variable {k : ι}

omit [DecidableEq ι] in
theorem readCoctx_setCallBack (L : StackLayout ι) (m : Memory) (k : ι) :
    readCoctx (L.setCallBack m k) (L.coctx (.cor k)) = L.fresh k := by
  funext i
  refine (readCoctx_writeCoctx i).trans ?_
  by_cases hi : i ∈ [kRSP, kRBP, kRETAddr, kRDI]
  · exact if_pos hi
  · rw [if_neg hi]
    refine (readCoctx_writeCoctx i).trans ((if_pos (mem_coctxSlots i)).trans ?_)
    simp only [List.mem_cons, List.not_mem_nil, or_false, not_or] at hi
    simp [StackLayout.fresh, hi]

theorem suspended_of_setCallBack (hcurrent : s.current ≠ .cor k) {o : Unit}
    (hstep : step L s (.setCallBack k) = some (s', o)) :
    Suspended L s' (.cor k) (L.fresh k) s.cpu.mem := by
  obtain ⟨htop, heq⟩ := Option.ite_none_right_eq_some.1 hstep
  cases heq
  refine ⟨hcurrent, ⟨readCoctx_setCallBack L s.cpu.mem k, htop⟩, fun x hx => ?_⟩
  have hblock : ¬ InBlock (L.coctx (.cor k)) 112 x := by
    intro hblock
    cases (L.owner_coctx _ x hblock).symm.trans hx
  exact (writeCoctx_of_not_inBlock hblock).trans (writeCoctx_of_not_inBlock hblock)

/-- The thread `s'` has switched to the coroutine `k`, to be continued itself at `retAddr`, and
`t` is at the first instruction of `CoFunction`, called with the coroutine and with an empty
stack: the stack pointer is 8 below a multiple of 16, as it is behind a `call`. The word that has
been pushed lies in the block of the stack iff there is room for it between the last multiple of
16 and the end of the block. Besides it only the `m_coctx` of the caller has been written to, and
the return address of its call; and the rest of the stack is as `setCallBack` has found it in the
thread `s`. -/
structure Entered (L : StackLayout ι) (s s' t : NativeThread ι) (k : ι) (retAddr : Address) :
    Prop where
  current_eq : t.current = .cor k
  rip_eq : t.cpu.rip = L.coFunction
  rdi_eq : t.cpu.reg .rdi = L.this (.cor k)
  rsp_eq : t.cpu.reg .rsp = L.top k + 8
  aligned : (t.cpu.reg .rsp + 8).toNat % 16 = 0
  push_eq : t.cpu.mem.read (L.top k) = L.coFunction
  push_inBlock_iff : 16 ≤ L.stackSize k → (L.stackSp k).toNat + L.stackSize k < 2 ^ 64 →
    ((∀ x, InBlock (L.top k) 8 x → InBlock (L.stackSp k) (L.stackSize k) x) ↔
      8 ≤ ((L.stackSp k).toNat + L.stackSize k) % 16)
  call_eq : t.cpu.mem.read (s'.cpu.reg .rsp - 8) = retAddr
  frame_eq : ∀ x, ¬ InBlock (L.coctx s'.current) 112 x → ¬ InBlock (s'.cpu.reg .rsp - 8) 8 x →
    ¬ InBlock (L.top k) 8 x → t.cpu.mem x = s'.cpu.mem x
  stack_eq : ∀ x, L.owner x = .stack (.cor k) → ¬ InBlock (L.top k) 8 x →
    t.cpu.mem x = s.cpu.mem x

omit [DecidableEq ι] in
/-- The word that the first switch to a coroutine pushes lies in the block of its stack iff
there is room for it between the last multiple of 16 and the end. -/
theorem push_inBlock_iff (hsize : 16 ≤ L.stackSize k)
    (hend : (L.stackSp k).toNat + L.stackSize k < 2 ^ 64) :
    (∀ x, InBlock (L.top k) 8 x → InBlock (L.stackSp k) (L.stackSize k) x) ↔
      8 ≤ ((L.stackSp k).toNat + L.stackSize k) % 16 := by
  have hsum : (L.stackSp k + BitVec.ofNat 64 (L.stackSize k)).toNat =
      (L.stackSp k).toNat + L.stackSize k := by
    rw [BitVec.toNat_add, BitVec.toNat_ofNat, Nat.mod_eq_of_lt (a := L.stackSize k) (by omega),
      Nat.mod_eq_of_lt hend]
  have htop := toNat_and_neg_sixteen (L.stackSp k + BitVec.ofNat 64 (L.stackSize k))
  rw [hsum] at htop
  have hword (x : Address) : InBlock (L.top k) 8 x ↔
      (L.top k).toNat ≤ x.toNat ∧ x.toNat < (L.top k).toNat + 8 :=
    inBlock_iff (by rw [StackLayout.top, htop]; omega)
  have hstack (x : Address) := inBlock_iff (x := x) hend.le
  constructor
  · intro h
    have hlast := inBlock_add (L.top k) (i := 7) (n := 8) (by omega) (by omega)
    have hin := (hstack _).1 (h _ hlast)
    have hdist := (hword _).1 hlast
    rw [StackLayout.top] at hdist hin
    rw [BitVec.toNat_add, htop, BitVec.toNat_ofNat] at hin
    omega
  · intro hroom x hx
    have hdist := (hword x).1 hx
    rw [StackLayout.top, htop] at hdist
    exact (hstack x).2 (by omega)

/-- The first switch to a coroutine with a new context enters `CoFunction`, whatever the
others have done since `setCallBack`. -/
theorem entered_of_run (hcurrent : s.current ≠ .cor k) {ops : List (NativeOp ι)}
    {os : List Unit} (hops : ∀ op ∈ ops, Spares (.cor k) op)
    (hrun : (machine L).run s (.setCallBack k :: ops) = some (s', os))
    (hcall : L.OnStack s'.current (s'.cpu.reg .rsp - 8)) (retAddr : Address) :
    ∃ t, (machine L).step s' (.swap (.cor k) retAddr) = some (t, ()) ∧
      Entered L s s' t k retAddr := by
  obtain ⟨s₁, o, os', hstep, hrest, -⟩ := (Machine.run_cons_eq_some_iff ..).1 hrun
  have hsuspended := (suspended_of_setCallBack hcurrent hstep).run hops hrest
  obtain ⟨t, hstep', hswitched⟩ := hsuspended.exists_switched hcall retAddr
  have hrsp : t.cpu.reg .rsp = L.top k + 8 := by
    rw [hswitched.reg_eq]
    rfl
  refine ⟨t, hstep', hswitched.current_eq, hswitched.rip_eq, ?_, hrsp, ?_, hswitched.push_eq,
    push_inBlock_iff, ?_, fun x hcoctx hret hslot => ?_,
    fun x hx hslot => hsuspended.stack_eq_of_switched hcall hswitched hx hslot⟩
  · rw [hswitched.reg_eq]
    rfl
  · have htop := toNat_and_neg_sixteen (L.stackSp k + BitVec.ofNat 64 (L.stackSize k))
    have height : ((8 : Address) + 8).toNat = 16 := rfl
    rw [hrsp, BitVec.add_assoc, BitVec.toNat_add, StackLayout.top, htop, height]
    omega
  · refine (Memory.read_congr fun x hx => hswitched.mem_eq x ?_ ?_).trans
      (Memory.read_write_self ..)
    · exact fun hblock => hcall.separate_coctx x hblock hx
    · exact hcall.separate hsuspended.stored.onStack hsuspended.current_ne x hx
  · exact (hswitched.mem_eq x hcoctx hslot).trans (Memory.write_of_not_inBlock hret)

/-- The first switch to the coroutine. -/
theorem entered_of_run_oneCoroutine :
    ∃ s' os t, (machine oneCoroutine).run atMain [.setCallBack ()] = some (s', os) ∧
      (machine oneCoroutine).step s' (.swap (.cor ()) 0x400010) = some (t, ()) ∧
      Entered oneCoroutine atMain s' t () 0x400010 := by
  have hrun : ((machine oneCoroutine).run atMain [.setCallBack ()]).map
        (fun p => decide (oneCoroutine.OnStack p.1.current (p.1.cpu.reg .rsp - 8))) =
      some true := by decide +kernel
  obtain ⟨⟨s', os⟩, hset, hcall⟩ := Option.map_eq_some_iff.1 hrun
  obtain ⟨t, hstep, hentered⟩ :=
    entered_of_run (by decide) (by simp) hset (of_decide_eq_true hcall) 0x400010
  exact ⟨s', os, t, hset, hstep, hentered⟩

end Enter

section Represents

variable {α β : Type} {Means : Coctx ι α β → CoctxRegs → Prop} {s : CorThread ι α β}
  {n n' : NativeThread ι} {co : CorPtr ι}

/-- The contexts in memory are those of the thread `s` of scripts, where `Means` says which
registers stand for which place. -/
def Represents (L : StackLayout ι) (Means : Coctx ι α β → CoctxRegs → Prop)
    (s : CorThread ι α β) (n : NativeThread ι) : Prop :=
  ∀ co, co ≠ n.current → ∀ place, (s.cors co).coctx = some place →
    ∃ f, Stored L n co f ∧ Means place f

theorem Stored.step {f : CoctxRegs} (h : Stored L n co f) (hne : co ≠ n.current)
    {op : NativeOp ι} (hstep : NativeThread.step L n op = some (n', ())) (hop : Spares co op) :
    Stored L n' co f :=
  (Suspended.step (m := n.cpu.mem) ⟨hne.symm, h, fun _ _ => rfl⟩ hop hstep).stored

theorem Represents.execute (h : Represents L Means s n) {reg : Reg → BitVec 64}
    {bytes : List (Address × BitVec 8)}
    (hstep : step L n (.execute reg bytes) = some (n', ())) {s' : CorThread ι α β}
    (hcors : ∀ co, (s'.cors co).coctx = (s.cors co).coctx) : Represents L Means s' n' := by
  intro co hne place hplace
  have hcurrent : n'.current = n.current := by
    obtain ⟨_, heq⟩ := Option.ite_none_right_eq_some.1 hstep
    cases heq
    rfl
  rw [hcurrent] at hne
  obtain ⟨f, hstored, hmeans⟩ := h co hne place ((hcors co).symm.trans hplace)
  exact ⟨f, hstored.step hne hstep trivial, hmeans⟩

/-- `setCallBack` sets up a context that stands for the entry of `CoFunction`. -/
theorem Represents.setCallBack (h : Represents L Means s n) {k : ι} {cb : β}
    {s' : CorThread ι α β} (hset : s.setCallBack (.cor k) cb = (s', true))
    (hmeans : Means ⟨.cor k, .start⟩ (L.fresh k))
    (hstep : step L n (.setCallBack k) = some (n', ())) : Represents L Means s' n' := by
  intro co hne place hplace
  have hcurrent : n'.current = n.current := by
    obtain ⟨_, heq⟩ := Option.ite_none_right_eq_some.1 hstep
    cases heq
    rfl
  rw [hcurrent] at hne
  rw [CorThread.setCallBack, if_neg (by simp)] at hset
  split_ifs at hset
  · cases congrArg Prod.snd hset
  · cases hset
    by_cases hco : co = .cor k
    · subst hco
      simp only [CorThread.cors_set, Function.update_self] at hplace
      cases hplace
      exact ⟨_, (suspended_of_setCallBack hne.symm hstep).stored, hmeans⟩
    · simp only [CorThread.cors_set, Function.update_of_ne hco] at hplace
      obtain ⟨f, hstored, hmeans'⟩ := h co hne place hplace
      exact ⟨f, hstored.step hne hstep (Ne.symm hco), hmeans'⟩

/-- Where a script switches to another coroutine, `coctx_swap` does: it goes on with
registers that stand for the place where the script goes on. -/
theorem represents_swap (h : Represents L Means s n) (hne : co ≠ n.current)
    {here : Coctx ι α β} {s' : CorThread ι α β}
    (hswap : s.coctxSwap n.current co here = some s')
    (hcall : L.OnStack n.current (n.cpu.reg .rsp - 8)) {retAddr : Address}
    (hmeans : Means here (frame L n co retAddr)) :
    ∃ n' f, step L n (.swap co retAddr) = some (n', ()) ∧ Represents L Means s' n' ∧
      Switched L n n' co retAddr f ∧ Means s'.cpu f := by
  obtain ⟨cpu, hcpu, rfl⟩ := Option.map_eq_some_iff.1 hswap
  simp only [CorThread.cors_set, Function.update_of_ne hne] at hcpu
  obtain ⟨f, hstored, hmeans'⟩ := h co hne cpu hcpu
  obtain ⟨n', hstep, hswitched⟩ := Suspended.exists_switched (m := n.cpu.mem)
    ⟨hne.symm, hstored, fun _ _ => rfl⟩ hcall retAddr
  refine ⟨n', f, hstep, fun co' hne' place hplace => ?_, hswitched, hmeans'⟩
  rw [hswitched.current_eq] at hne'
  by_cases hco : co' = n.current
  · subst hco
    simp only [CorThread.cors_set, Function.update_self] at hplace
    cases hplace
    exact ⟨_, hswitched.stored, hmeans⟩
  · simp only [CorThread.cors_set, Function.update_of_ne hco] at hplace
    obtain ⟨f', hstored', hmeans''⟩ := h co' hco place hplace
    exact ⟨f', hstored'.step hco hstep hne'.symm, hmeans''⟩

end Represents

end NativeThread

end Rocket
