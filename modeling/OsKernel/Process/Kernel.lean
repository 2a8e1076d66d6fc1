import OsKernel.Memory.Allocator

/-
This file states the data of `include/process.h`, `include/context.h` and the
global variables of `process.c` and `scheduler.c`.
Fields that no scheduling or lifecycle function reads (names, parents, user
stacks, creation times, flags) are left out, and so is every printed line.
-/

namespace OsKernel.Proc

/-- The states of `process_state_t`. -/
inductive ProcessState where
  | created
  | ready
  | running
  | blocked
  | terminated
  deriving DecidableEq, Repr

/-- The saved registers of `struct context`. -/
structure Context where
  rax : Nat
  rbx : Nat
  rcx : Nat
  rdx : Nat
  rsi : Nat
  rdi : Nat
  rbp : Nat
  rsp : Nat
  r8 : Nat
  r9 : Nat
  r10 : Nat
  r11 : Nat
  r12 : Nat
  r13 : Nat
  r14 : Nat
  r15 : Nat
  cs : Nat
  ds : Nat
  es : Nat
  fs : Nat
  gs : Nat
  ss : Nat
  rip : Nat
  rflags : Nat
  deriving DecidableEq, Repr

/-- A cleared context holds zero in every register. -/
def Context.zero : Context :=
  ⟨0, 0, 0, 0, 0, 0, 0, 0, 0, 0, 0, 0, 0, 0, 0, 0, 0, 0, 0, 0, 0, 0, 0, 0⟩

/-- A new context enters `entry` with `arg` in `rdi` on the given stack and with interrupts on. -/
def contextInit (entry arg stackTop : Nat) : Context :=
  { Context.zero with
    rip := entry
    rsp := stackTop
    rdi := arg
    cs := 0x08
    ds := 0x10
    es := 0x10
    fs := 0x10
    gs := 0x10
    ss := 0x10
    rflags := 0x202 }

/-- A memory map owns its own object and one object for each mapped area. -/
structure MmStruct where
  addr : Addr
  areas : List Addr
  deriving DecidableEq, Repr

/-- The process control block holds the fields that the kernel reads back. -/
structure Process where
  pid : Int
  state : ProcessState
  priority : Nat
  counter : Nat
  context : Option Addr
  mm : Option MmStruct
  ptRegs : Option Addr
  next : Option Addr
  cpuTime : Nat
  exitCode : Int
  kernelStack : Option Addr
  deriving DecidableEq, Repr

/-- A cleared control block is what `memset` leaves. -/
def Process.zero : Process where
  pid := 0
  state := .created
  priority := 0
  counter := 0
  context := none
  mm := none
  ptRegs := none
  next := none
  cpuTime := 0
  exitCode := 0
  kernelStack := none

/-- The ready queue keeps its two ends; the links are the `next` fields of the processes. -/
structure ReadyQueue where
  head : Option Addr
  tail : Option Addr
  deriving DecidableEq, Repr

/-- The 64 slots of the task table have a first one. -/
instance taskSlots : NeZero (64 : Nat) := ⟨by decide⟩

/-- The kernel state is every global of the subsystem and the memory behind its pointers.
The field `strayFrees` records each argument of `kfree` that was not live. -/
structure Kernel (H : Type) where
  nextPid : Int
  current : Option Addr
  task : Fin 64 → Option Addr
  taskCount : Nat
  readyQueue : ReadyQueue
  procs : Addr → Process
  contexts : Addr → Context
  heap : H
  strayFrees : List Addr

/-- Before `process_init` the globals hold their static initialisers, over any memory contents. -/
def Kernel.boot {H : Type} (heap : H) (procs : Addr → Process) (contexts : Addr → Context) :
    Kernel H where
  nextPid := 1
  current := none
  task := fun _ => none
  taskCount := 0
  readyQueue := ⟨none, none⟩
  procs := procs
  contexts := contexts
  heap := heap
  strayFrees := []

/-- The type `pid_t` has 32 bits and a sign, so the counter wraps. -/
def wrapPid (value : Int) : Int := (value + 2 ^ 31) % 2 ^ 32 - 2 ^ 31

/-- Below the limit of `pid_t` nothing wraps. -/
theorem wrapPid_eq (value : Int) (lower : -2 ^ 31 ≤ value) (upper : value < 2 ^ 31) :
    wrapPid value = value := by
  unfold wrapPid
  omega

/-- The sizes of the allocated structures on x86_64. -/
def sizeofProcess : Nat := 168

def sizeofContext : Nat := 160

def sizeofPtRegs : Nat := 160

/-- The time slice that each priority receives. -/
def counterInitValues : List Nat := [0, 4, 3, 2, 1]

section Access

variable {H : Type}

/-- This write changes one control block. -/
def Kernel.onProc (s : Kernel H) (p : Addr) (f : Process → Process) : Kernel H :=
  { s with procs := Function.update s.procs p (f (s.procs p)) }

@[simp] theorem Kernel.onProc_nextPid (s : Kernel H) (p : Addr) (f : Process → Process) :
    (s.onProc p f).nextPid = s.nextPid := rfl

@[simp] theorem Kernel.onProc_current (s : Kernel H) (p : Addr) (f : Process → Process) :
    (s.onProc p f).current = s.current := rfl

@[simp] theorem Kernel.onProc_task (s : Kernel H) (p : Addr) (f : Process → Process) :
    (s.onProc p f).task = s.task := rfl

@[simp] theorem Kernel.onProc_taskCount (s : Kernel H) (p : Addr) (f : Process → Process) :
    (s.onProc p f).taskCount = s.taskCount := rfl

@[simp] theorem Kernel.onProc_readyQueue (s : Kernel H) (p : Addr) (f : Process → Process) :
    (s.onProc p f).readyQueue = s.readyQueue := rfl

@[simp] theorem Kernel.onProc_heap (s : Kernel H) (p : Addr) (f : Process → Process) :
    (s.onProc p f).heap = s.heap := rfl

@[simp] theorem Kernel.onProc_strayFrees (s : Kernel H) (p : Addr) (f : Process → Process) :
    (s.onProc p f).strayFrees = s.strayFrees := rfl

@[simp] theorem Kernel.onProc_self (s : Kernel H) (p : Addr) (f : Process → Process) :
    (s.onProc p f).procs p = f (s.procs p) := by
  simp [onProc]

@[simp] theorem Kernel.onProc_of_ne (s : Kernel H) (p q : Addr) (f : Process → Process)
    (different : q ≠ p) : (s.onProc p f).procs q = s.procs q := by
  simp [onProc, different]

/-- The subsystem asks its allocator for one object. -/
def Kernel.kmalloc (A : Allocator H) (s : Kernel H) (size : Nat) : Option Addr × Kernel H :=
  ((A.kmalloc s.heap size).1, { s with heap := (A.kmalloc s.heap size).2 })

/-- The subsystem returns one object, and a pointer that is not live is recorded. -/
def Kernel.kfree (A : Allocator H) (s : Kernel H) (p : Addr) : Kernel H :=
  { s with
    heap := A.kfree s.heap p
    strayFrees := if p ∈ A.live s.heap then s.strayFrees else p :: s.strayFrees }

/-- A process is present when some slot of the task table holds it. -/
def Kernel.InTable (s : Kernel H) (p : Addr) : Prop := ∃ i, s.task i = some p

/-- Only the slots of the table decide who is present. -/
theorem Kernel.inTable_congr {s s' : Kernel H} (tasks : s'.task = s.task) (p : Addr) :
    s'.InTable p ↔ s.InTable p := by
  rw [Kernel.InTable, Kernel.InTable, tasks]

instance (s : Kernel H) (p : Addr) : Decidable (s.InTable p) :=
  inferInstanceAs (Decidable (∃ i, s.task i = some p))

end Access

end OsKernel.Proc
