import Mathlib.Data.Fin.VecNotation
import Rocket.Foundation.Memory

/-!
# coctx_swap

The one function of the program that is written in assembly: it stores the registers of
the context that runs into one `coctx` and loads those of another. Its instructions are
executed on registers and on a memory of bytes. Straight-line code is all there is, so
`rip` is only looked at where `ret` leaves the function.

`swapped_coctxSwap` says what a call does when the two contexts and the two words at the
stack pointers do not overlap. The registers `r10` and `r11` are not stored, and `rax` is
cleared.
-/

namespace Rocket

open Foundation

inductive Reg where
  | rax | rbx | rcx | rdx | rsi | rdi | rbp | rsp
  | r8 | r9 | r10 | r11 | r12 | r13 | r14 | r15
  deriving DecidableEq, Repr

@[ext] structure Cpu where
  reg : Reg → BitVec 64
  rip : Address
  mem : Memory

/-- The instructions of `coctx_swap`. A displacement is in front of its base register. -/
inductive Instr where
  | lea (disp : ℕ) (base dst : Reg)
  | store (src : Reg) (disp : ℕ) (base : Reg)
  | load (disp : ℕ) (base dst : Reg)
  | xor (src dst : Reg)
  | push (disp : ℕ) (base : Reg)
  | ret
  deriving DecidableEq, Repr

namespace Cpu

variable (c : Cpu)

def set (r : Reg) (v : BitVec 64) : Cpu := { c with reg := Function.update c.reg r v }

@[simp] theorem reg_set (r : Reg) (v : BitVec 64) :
    (c.set r v).reg = Function.update c.reg r v := rfl

@[simp] theorem mem_set (r : Reg) (v : BitVec 64) : (c.set r v).mem = c.mem := rfl

@[simp] theorem rip_set (r : Reg) (v : BitVec 64) : (c.set r v).rip = c.rip := rfl

/-- The address `disp(%base)`. -/
def addr (disp : ℕ) (base : Reg) : Address := c.reg base + BitVec.ofNat 64 disp

def exec : Instr → Cpu
  | .lea disp base dst => c.set dst (c.addr disp base)
  | .store src disp base => { c with mem := c.mem.write (c.addr disp base) (c.reg src) }
  | .load disp base dst => c.set dst (c.mem.read (c.addr disp base))
  | .xor src dst => c.set dst (c.reg dst ^^^ c.reg src)
  | .push disp base =>
      { c.set .rsp (c.reg .rsp - 8) with
        mem := c.mem.write (c.reg .rsp - 8) (c.mem.read (c.addr disp base)) }
  | .ret => { c.set .rsp (c.reg .rsp + 8) with rip := c.mem.read (c.reg .rsp) }

def execAll (code : List Instr) : Cpu := code.foldl exec c

end Cpu

/-- The first half of `coctx_swap`: store into the context at `rdi`. -/
def coctxStore : List Instr :=
  [.lea 0 .rsp .rax,
    .store .rax 104 .rdi,
    .store .rbx 96 .rdi,
    .store .rcx 88 .rdi,
    .store .rdx 80 .rdi,
    .load 0 .rax .rax,
    .store .rax 72 .rdi,
    .store .rsi 64 .rdi,
    .store .rdi 56 .rdi,
    .store .rbp 48 .rdi,
    .store .r8 40 .rdi,
    .store .r9 32 .rdi,
    .store .r12 24 .rdi,
    .store .r13 16 .rdi,
    .store .r14 8 .rdi,
    .store .r15 0 .rdi,
    .xor .rax .rax]

/-- The second half: load from the context at `rsi`, and return. -/
def coctxLoad : List Instr :=
  [.load 48 .rsi .rbp,
    .load 104 .rsi .rsp,
    .load 0 .rsi .r15,
    .load 8 .rsi .r14,
    .load 16 .rsi .r13,
    .load 24 .rsi .r12,
    .load 32 .rsi .r9,
    .load 40 .rsi .r8,
    .load 56 .rsi .rdi,
    .load 80 .rsi .rdx,
    .load 88 .rsi .rcx,
    .load 96 .rsi .rbx,
    .lea 8 .rsp .rsp,
    .push 72 .rsi,
    .load 64 .rsi .rsi,
    .ret]

/-- `coctx_swap` -/
def coctxSwapCode : List Instr := coctxStore ++ coctxLoad

/-- `regs[14]` of a `coctx`. -/
abbrev CoctxRegs := Fin 14 → BitVec 64

def kRBP : Fin 14 := 6

def kRDI : Fin 14 := 7

def kRSI : Fin 14 := 8

def kRETAddr : Fin 14 := 9

def kRSP : Fin 14 := 13

/-- The address of a word of the `coctx` at `p`. -/
def coctxSlot (p : Address) (i : Fin 14) : Address := p + BitVec.ofNat 64 (8 * i)

/-- The `coctx` at an address. -/
def readCoctx (m : Memory) (p : Address) : CoctxRegs := fun i => m.read (coctxSlot p i)

/-- Write some words of the `coctx` at `p`, one after the other. -/
def writeCoctx (m : Memory) (p : Address) (f : CoctxRegs) (slots : List (Fin 14)) : Memory :=
  slots.foldl (fun m i => m.write (coctxSlot p i) (f i)) m

/-- The order in which `coctx_swap` stores. -/
def coctxSlots : List (Fin 14) := [13, 12, 11, 10, 9, 8, 7, 6, 5, 4, 3, 2, 1, 0]

theorem mem_coctxSlots : ∀ i, i ∈ coctxSlots := by decide

/-- What a call of `coctx_swap` stores: the word at the stack pointer is its return
address. -/
def Cpu.coctx (c : Cpu) : CoctxRegs :=
  ![c.reg .r15, c.reg .r14, c.reg .r13, c.reg .r12, c.reg .r9, c.reg .r8, c.reg .rbp, c.reg .rdi,
    c.reg .rsi, c.mem.read (c.reg .rsp), c.reg .rdx, c.reg .rcx, c.reg .rbx, c.reg .rsp]

/-- The registers that a context has left. Those that are not stored keep the values `old`. -/
def CoctxRegs.loaded (f : CoctxRegs) (old : Reg → BitVec 64) : Reg → BitVec 64
  | .rax => old .rax
  | .rbx => f 12
  | .rcx => f 11
  | .rdx => f 10
  | .rsi => f kRSI
  | .rdi => f kRDI
  | .rbp => f kRBP
  | .rsp => f kRSP + 8
  | .r8 => f 5
  | .r9 => f 4
  | .r10 => old .r10
  | .r11 => old .r11
  | .r12 => f 3
  | .r13 => f 2
  | .r14 => f 1
  | .r15 => f 0

section Slots

variable {p a : Address} {m : Memory} {f : CoctxRegs} {slots : List (Fin 14)}

/-- A word of a `coctx` lies inside it. -/
theorem inBlock_of_slot {i : Fin 14} {x : Address} (h : InBlock (coctxSlot p i) 8 x) :
    InBlock p 112 x :=
  h.of_add (by omega) (by omega)

theorem separate_slots {i j : Fin 14} (hij : i ≠ j) :
    Separate (coctxSlot p i) 8 (coctxSlot p j) 8 := by
  rcases Nat.lt_or_gt_of_ne (Fin.val_ne_iff.2 hij) with hlt | hlt
  · exact separate_add p (by omega) (by omega)
  · exact (separate_add p (by omega) (by omega)).symm

theorem read_writeCoctx_of_separate (h : Separate p 112 a 8) :
    (writeCoctx m p f slots).read a = m.read a := by
  induction slots generalizing m with
  | nil => rfl
  | cons i slots ih =>
      have hslot : Separate a 8 (coctxSlot p i) 8 := fun x ha hi => h x (inBlock_of_slot hi) ha
      exact ih.trans (Memory.read_write_of_separate hslot)

theorem readCoctx_writeCoctx (j : Fin 14) :
    readCoctx (writeCoctx m p f slots) p j = if j ∈ slots then f j else readCoctx m p j := by
  induction slots generalizing m with
  | nil => rfl
  | cons i slots ih =>
      refine ih.trans ?_
      by_cases hj : j ∈ slots
      · rw [if_pos hj, if_pos (List.mem_cons_of_mem _ hj)]
      · rw [if_neg hj]
        by_cases hij : j = i
        · subst hij
          rw [if_pos List.mem_cons_self]
          exact Memory.read_write_self ..
        · rw [if_neg (by simp [hij, hj])]
          exact Memory.read_write_of_separate (separate_slots hij)

/-- Bytes outside of a `coctx` are not changed. -/
theorem writeCoctx_of_not_inBlock {x : Address} (h : ¬ InBlock p 112 x) :
    writeCoctx m p f slots x = m x := by
  induction slots generalizing m with
  | nil => rfl
  | cons i slots ih =>
      exact ih.trans (Memory.write_of_not_inBlock fun hi => h (inBlock_of_slot hi))

end Slots

namespace Cpu

variable (c : Cpu)

@[simp] theorem execAll_nil : c.execAll [] = c := rfl

@[simp] theorem execAll_cons (i : Instr) (code : List Instr) :
    c.execAll (i :: code) = (c.exec i).execAll code := rfl

theorem execAll_append (code code' : List Instr) :
    c.execAll (code ++ code') = (c.execAll code).execAll code' := List.foldl_append

end Cpu

section Swap

variable {c : Cpu}

/-- Of the registers, the first half of the code only changes `rax`. -/
theorem reg_coctxStore (c : Cpu) :
    (c.execAll coctxStore).reg = Function.update c.reg .rax 0 := by
  simp [coctxStore, Cpu.exec, Cpu.addr]

theorem mem_coctxStore (hret : Separate (c.reg .rdi) 112 (c.reg .rsp) 8) :
    (c.execAll coctxStore).mem =
      writeCoctx c.mem (c.reg .rdi) c.coctx coctxSlots := by
  have hread : (writeCoctx c.mem (c.reg .rdi) c.coctx [13, 12, 11, 10]).read (c.reg .rsp) =
      c.mem.read (c.reg .rsp) := read_writeCoctx_of_separate hret
  simp [writeCoctx, coctxSlot, Cpu.coctx] at hread
  simp [coctxStore, Cpu.exec, Cpu.addr, writeCoctx, coctxSlots, coctxSlot, Cpu.coctx, hread]

/-- The second half loads the words of the context at `rsi`, when the word that it pushes is
not one of them. -/
theorem coctxLoad_eq {f : CoctxRegs} (hf : readCoctx c.mem (c.reg .rsi) = f)
    (hpush : Separate (c.reg .rsi) 112 (f kRSP) 8) :
    c.execAll coctxLoad =
      { reg := f.loaded c.reg
        rip := f kRETAddr
        mem := c.mem.write (f kRSP) (f kRETAddr) } := by
  subst hf
  have hrsi : (c.mem.write (c.mem.read (c.reg .rsi + 104#64))
      (c.mem.read (c.reg .rsi + 72#64))).read (c.reg .rsi + 64#64) =
        c.mem.read (c.reg .rsi + 64#64) :=
    Memory.read_write_of_separate fun x hx => hpush x (inBlock_of_slot (i := kRSI) hx)
  have hreg : (c.execAll coctxLoad).reg = (readCoctx c.mem (c.reg .rsi)).loaded c.reg := by
    funext r
    cases r <;>
      simp [coctxLoad, Cpu.exec, Cpu.addr, CoctxRegs.loaded, readCoctx, coctxSlot, kRSP, kRBP,
        kRDI, kRSI, hrsi]
  have hrest : (c.execAll coctxLoad).rip = readCoctx c.mem (c.reg .rsi) kRETAddr ∧
      (c.execAll coctxLoad).mem = c.mem.write (readCoctx c.mem (c.reg .rsi) kRSP)
        (readCoctx c.mem (c.reg .rsi) kRETAddr) := by
    simp [coctxLoad, Cpu.exec, Cpu.addr, readCoctx, coctxSlot, kRSP, kRETAddr]
  exact Cpu.ext hreg hrest.1 hrest.2

/-- What a call of `coctx_swap` does: the context at `rdi` holds what has been running, the
registers are those of the context at `rsi`, and execution goes on at its return address,
which has been pushed. Nothing else is written. -/
structure Swapped (c c' : Cpu) (f : CoctxRegs) : Prop where
  reg_eq : c'.reg = f.loaded (Function.update c.reg .rax 0)
  rip_eq : c'.rip = f kRETAddr
  coctx_eq : readCoctx c'.mem (c.reg .rdi) = c.coctx
  slot_eq : c'.mem.read (f kRSP) = f kRETAddr
  mem_eq : ∀ x, ¬ InBlock (c.reg .rdi) 112 x → ¬ InBlock (f kRSP) 8 x → c'.mem x = c.mem x

/-- A call stores the context that runs and loads the other one, when the two and the words
at both stack pointers do not overlap. -/
theorem swapped_coctxSwap {f : CoctxRegs} (hf : readCoctx c.mem (c.reg .rsi) = f)
    (hctx : Separate (c.reg .rdi) 112 (c.reg .rsi) 112)
    (hret : Separate (c.reg .rdi) 112 (c.reg .rsp) 8)
    (hpush : Separate (c.reg .rsi) 112 (f kRSP) 8)
    (hpush' : Separate (c.reg .rdi) 112 (f kRSP) 8) : Swapped c (c.execAll coctxSwapCode) f := by
  have hreg := reg_coctxStore c
  have hmem := mem_coctxStore hret
  have hrdi : (c.execAll coctxStore).reg .rdi = c.reg .rdi := by rw [hreg]; rfl
  have hrsi : (c.execAll coctxStore).reg .rsi = c.reg .rsi := by rw [hreg]; rfl
  have hload : readCoctx (c.execAll coctxStore).mem (c.reg .rsi) = f := by
    funext i
    rw [← hf, hmem]
    exact read_writeCoctx_of_separate fun x hx hi => hctx x hx (inBlock_of_slot hi)
  rw [coctxSwapCode, Cpu.execAll_append,
    coctxLoad_eq (f := f) (by rw [hrsi]; exact hload) (by rw [hrsi]; exact hpush), hreg, hmem]
  refine ⟨rfl, rfl, ?_, Memory.read_write_self .., fun x hx hslot => ?_⟩
  · funext i
    have hsep : Separate (coctxSlot (c.reg .rdi) i) 8 (f kRSP) 8 :=
      fun x hx => hpush' x (inBlock_of_slot hx)
    rw [readCoctx, Memory.read_write_of_separate hsep]
    exact (readCoctx_writeCoctx i).trans (if_pos (mem_coctxSlots i))
  · exact (Memory.write_of_not_inBlock hslot).trans (writeCoctx_of_not_inBlock hx)

end Swap

end Rocket
