import OsKernel.Process.FifoSafety

/-
This file proves that a failed `process_create` over `heap.c` leaves no trace.
Other clients of the heap may allocate, write and free between the operations.
-/

namespace OsKernel.Proc
open OsKernel.Library
open Mm (OrderedHeap heapAllocator heapState)

section Foreign

variable {H : Type} {A : Allocator H} {base base' : Finset Addr} {s : Kernel H} {f : Fifo Addr} {heap : H}

/-- A change of the heap that spares the objects of all tasks keeps the invariant. -/
theorem KernelInv.rebase (inv : KernelInv A base s f)
    (outside : ∀ p, s.InTable p → ∀ a ∈ objects s p, a ∉ base')
    (lives : ∀ a, a ∈ A.live heap ↔ a ∈ base' ∨ ∃ p, s.InTable p ∧ a ∈ objects s p) :
    KernelInv A base' { s with heap := heap } f := by
  have partition : Partition base' {p | s.InTable p} (objects s) (A.live heap) :=
    inv.owns.partition.rebase outside lives
  refine ⟨⟨inv.table.congr rfl rfl fun _ _ => rfl, ?_, inv.regs⟩, ⟨⟨?_, inv.coherent⟩, inv.attends⟩, inv.active⟩
  · exact ⟨partition, inv.owns.stack, inv.owns.context, inv.owns.noMap, inv.owns.noStray⟩
  · exact ⟨inv.simulates.queue, inv.simulates.current, inv.simulates.status⟩

end Foreign

variable {m m' start : Machine OrderedHeap} {f : Fifo Addr} {base : Finset Addr}

/-- Another client of the heap makes a step that frees no object of a task. -/
structure Foreign (m : Machine OrderedHeap) (op : Mm.Op) (m' : Machine OrderedHeap) : Prop where
  step : Mm.Step m.kernel.heap.toClient op m'.kernel.heap.toClient
  spared : ∀ p, m.kernel.InTable p → ∀ a ∈ objects m.kernel p, op ≠ .kfree a
  rest : m' = { m with kernel := { m.kernel with heap := m'.kernel.heap } }

/-- The process subsystem shares the heap with other clients. -/
inductive SharedStep : Machine OrderedHeap → Op ⊕ Mm.Op → Machine OrderedHeap → Prop
  | process {m m' : Machine OrderedHeap} {op : Op} (taken : Disciplined heapAllocator fifoAllow m op m') :
      SharedStep m (.inl op) m'
  | foreign {m m' : Machine OrderedHeap} {op : Mm.Op} (taken : Foreign m op m') : SharedStep m (.inr op) m'

/-- A step of another client changes the base only. -/
theorem KernelInv.foreign {op : Mm.Op} (inv : KernelInv heapAllocator base m.kernel f) (taken : Foreign m op m') :
    ∃ base', KernelInv heapAllocator base' m'.kernel f := by
  have owned := inv.owns.partition
  have apart : ∀ p, m.kernel.InTable p → ∀ a ∈ objects m.kernel p, a ∉ base := owned.outside
  have exact : ∀ a, a ∈ m.kernel.heap.live ↔ a ∈ base ∨ ∃ p, m.kernel.InTable p ∧ a ∈ objects m.kernel p :=
    owned.exact
  obtain ⟨step, spared, rest⟩ := taken
  obtain ⟨blocks, good⟩ := m.kernel.heap.ordered
  rw [rest]
  generalize m'.kernel.heap = heap at step
  obtain ⟨⟨h, live⟩, _⟩ := heap
  have unchanged (same : live = m.kernel.heap.live) :
      ∀ a, a ∈ live ↔ a ∈ base ∨ ∃ p, m.kernel.InTable p ∧ a ∈ objects m.kernel p := by
    rw [same]
    exact exact
  cases step with
  | @kmalloc _ _ p _ served =>
      by_cases null : p = 0
      · exact ⟨base, inv.rebase apart (unchanged (if_pos null))⟩
      · have fresh := good.fresh served null
        refine ⟨insert p base, inv.rebase ?_ ?_⟩
        · intro q member a held inside
          rcases Finset.mem_insert.mp inside with rfl | old
          · exact fresh ((exact a).mpr (.inr ⟨q, member, held⟩))
          · exact apart q member a held old
        · intro a
          change a ∈ (if p = 0 then m.kernel.heap.live else insert p m.kernel.heap.live) ↔ _
          rw [if_neg null, Finset.mem_insert, Finset.mem_insert, exact a, or_assoc]
  | @kfree p allowed =>
      refine ⟨base.erase p, inv.rebase ?_ ?_⟩
      · intro q member a held inside
        exact apart q member a held (Finset.mem_of_mem_erase inside)
      · intro a
        change a ∈ m.kernel.heap.live.erase p ↔ _
        rw [Finset.mem_erase, Finset.mem_erase, exact a, and_or_left]
        constructor
        · rintro (old | ⟨_, held⟩)
          · exact .inl old
          · exact .inr held
        · rintro (old | ⟨q, member, held⟩)
          · exact .inl old
          · exact .inr ⟨fun same => spared q member a held (by rw [same]), q, member, held⟩
  | write permitted => exact ⟨base, inv.rebase apart (unchanged rfl)⟩

/-- The invariant holds in every state of every run with other clients. -/
theorem shared_run_inv {heap : OrderedHeap} {labels : List (Op ⊕ Mm.Op)} (booted : Booted heapAllocator heap start)
    (run : Run SharedStep start labels m) : ∃ base f, KernelInv heapAllocator base m.kernel f := by
  apply run.invariant (fun _ m => ∃ base f, KernelInv heapAllocator base m.kernel f)
  · obtain ⟨f, inv⟩ := fifo_run_inv booted .nil
    exact ⟨_, f, inv⟩
  · rintro _ m label m' _ ⟨base, f, inv⟩ taken
    cases taken with
    | process taken =>
        obtain ⟨f', kept⟩ := (inv.step taken).1
        exact ⟨base, f', kept⟩
    | foreign taken =>
        obtain ⟨base', kept⟩ := inv.foreign taken
        exact ⟨base', f, kept⟩

/-- Everything but the pid counter is as before, for every live control block and context. -/
structure NoTrace (s s' : Kernel OrderedHeap) : Prop where
  task : s'.task = s.task
  taskCount : s'.taskCount = s.taskCount
  current : s'.current = s.current
  readyQueue : s'.readyQueue = s.readyQueue
  processes : ∀ p ∈ s.heap.live, s'.procs p = s.procs p
  contexts : ∀ ctx ∈ s.heap.live, s'.contexts ctx = s.contexts ctx
  heap : heapState s'.heap.heap = heapState s.heap.heap
  live : s'.heap.live = s.heap.live
  nextPid : s'.nextPid = s.nextPid ∨ s'.nextPid = wrapPid (s.nextPid + 1)

theorem CreateUndone.noTrace {s s' : Kernel OrderedHeap} (undone : CreateUndone heapAllocator s s') :
    NoTrace s s' where
  task := undone.task
  taskCount := undone.taskCount
  current := undone.current
  readyQueue := undone.readyQueue
  processes := undone.procs
  contexts := undone.contexts
  heap := by
    obtain ⟨blocks, good⟩ := s.heap.ordered
    have plain : ∀ n ∈ createSizes, 0 < n ∧ n ≤ 2 ^ 64 - 16 := by decide
    have rule := Mm.heapAllocator_unwinding s.heap.heap blocks plain
    have stacked := undone.unwound _ rule ⟨⟨blocks, good, rfl⟩, List.nodup_nil, by simp, rfl, rfl⟩
    exact stacked.heapState_eq good
  live := undone.live
  nextPid := undone.nextPid

/-- Over any heap in order a refused creation returns -1 and leaves no trace, and otherwise -1 is returned
only as the pid of a new process. In every run the tasks are live, so none of them changes. -/
theorem processCreate_noTrace :
    (∀ (s : Kernel OrderedHeap) (entry : Option Addr) (arg priority : Nat),
      ((processCreate heapAllocator s entry arg priority).1 = -1 ↔
        CreateRefused heapAllocator s entry ∨ s.nextPid = -1) ∧
      (CreateRefused heapAllocator s entry → NoTrace s (processCreate heapAllocator s entry arg priority).2)) ∧
    (∀ (heap : OrderedHeap) (start m : Machine OrderedHeap) (labels : List (Op ⊕ Mm.Op)),
      Booted heapAllocator heap start → Run SharedStep start labels m →
        ∀ p, m.kernel.InTable p → Usable heapAllocator m.kernel p) := by
  constructor
  · intro s entry arg priority
    rcases processCreate_outcome heapAllocator s entry arg priority with
      ⟨refused, failed, undone⟩ | ⟨granted, p, t, _, created⟩
    · exact ⟨⟨fun _ => .inl refused, fun _ => failed⟩, fun _ => undone.noTrace⟩
    · rw [created]
      exact ⟨by simp [granted], fun refused => absurd refused granted⟩
  · intro heap start m labels booted run p member
    obtain ⟨base, f, inv⟩ := shared_run_inv booted run
    exact inv.owns.usable member

/-- A region that holds idle and one process, and then only a control block. -/
theorem tightRegion : Mm.ValidRegion 4096 9600 := ⟨by decide, by decide, by decide, by decide⟩

/-- The kernel after `process_init` over the tight region. -/
def tightStart : Machine OrderedHeap :=
  .start (processInit heapAllocator
    (Kernel.boot (.boot Mm.blankHeap tightRegion) (fun _ => Process.zero) fun _ => Context.zero)).2

/-- The sample creates one process, and the next creation fails at the kernel stack. -/
theorem processCreate_noTrace_sample : ∃ m, Run SharedStep tightStart [.inl (.create (some 7) 0 2)] m ∧
    CreateRefused heapAllocator m.kernel (some 7) ∧ m.kernel.nextPid = 2 ∧
    (processCreate heapAllocator m.kernel (some 7) 0 2).2.nextPid = 3 ∧
    NoTrace m.kernel (processCreate heapAllocator m.kernel (some 7) 0 2).2 ∧
    ∀ p, m.kernel.InTable p → Usable heapAllocator m.kernel p := by
  have booted : Booted heapAllocator (.boot Mm.blankHeap tightRegion) tightStart :=
    ⟨_, _, _, Prod.ext (by decide +kernel) rfl, rfl⟩
  have created : Disciplined heapAllocator fifoAllow tightStart (.create (some 7) 0 2) _ :=
    ⟨rfl, by decide +kernel, 0, rfl⟩
  have run := Run.snoc .nil (SharedStep.process created)
  have refused : CreateRefused heapAllocator
      (processCreate heapAllocator tightStart.kernel (some 7) 0 2).2 (some 7) :=
    .inr (.inr (by decide +kernel))
  exact ⟨_, run, refused, by decide +kernel, by decide +kernel,
    (processCreate_noTrace.1 _ (some 7) 0 2).2 refused, processCreate_noTrace.2 _ _ _ _ booted run⟩

end OsKernel.Proc
