import OsKernel.Memory.HeapAllocator
import OsKernel.Process.FifoRuns

/-
This file reads the safety of FIFO runs off the kernel invariant.
-/

namespace OsKernel.Proc
open OsKernel.Library

variable {H : Type} {A : Allocator H} {heap : H} {start m : Machine H} {ops : List Op}

/-- The linked queue is the list `queue` of the ready tasks; one task runs and idle is not lost. -/
structure QueueInvariant (s : Kernel H) (queue : List Addr) (cur idle : Addr) : Prop where
  linked : Chain s.links s.readyQueue.head queue
  last : s.readyQueue.tail = queue.getLast?
  ends : s.readyQueue.tail = none ↔ s.readyQueue.head = none
  nodup : queue.Nodup
  ready : ∀ p, p ∈ queue ↔ s.InTable p ∧ (s.procs p).state = .ready
  current : s.current = some cur
  present : s.InTable cur
  running : (s.procs cur).state = .running
  single : ∀ p, s.InTable p → (s.procs p).state = .running → p = cur
  outside : cur ∉ queue
  first : s.task 0 = some idle ∧ (s.procs idle).pid = 0
  attends : cur ≠ idle → idle ∈ queue

/-- A list of links has a last node exactly when it has a first one. -/
theorem Represents.ends {s : Kernel H} {queue : List Addr} (represented : Represents s queue) :
    s.readyQueue.tail = none ↔ s.readyQueue.head = none := by
  rw [represented.last, represented.head_eq]
  cases queue with
  | nil => simp
  | cons p rest => simp

theorem KernelInv.queueInvariant {base : Finset Addr} {s : Kernel H} {f : Fifo Addr}
    (inv : KernelInv A base s f) : ∃ idle, QueueInvariant s f.queue f.current idle := by
  obtain ⟨idle, first, zero⟩ := inv.table.idle
  have queue := inv.simulates.queue
  refine ⟨idle, queue.chain, queue.last, Represents.ends queue, inv.coherent.nodup, ?_,
    inv.simulates.current, inv.current_inTable, ?_, ?_, inv.coherent.current_not_mem inv.active,
    ⟨first, zero⟩, inv.attends idle first⟩
  · intro p
    rw [inv.simulates.status]
    exact inv.coherent.ready p
  · rw [inv.simulates.status]
    exact inv.active
  · intro p member runs
    rw [inv.simulates.status] at runs
    exact inv.coherent.single p member runs

/-- Every state of every FIFO run has a sound queue, and every allowed operation returns. -/
theorem fifo_run_queueInvariant (booted : Booted A heap start)
    (run : Run (Disciplined A fifoAllow) start ops m) :
    (∃ queue cur idle, QueueInvariant m.kernel queue cur idle) ∧
      ∀ op, fifoAllow m op = true → m.Enabled op → ∃ m', Step A m op m' := by
  obtain ⟨f, inv⟩ := fifo_run_inv booted run
  obtain ⟨idle, holds⟩ := inv.queueInvariant
  refine ⟨⟨f.queue, f.current, idle, holds⟩, ?_⟩
  intro op allowed enabled
  obtain ⟨fuel, m', _, ran, _⟩ := inv.exec allowed enabled
  exact ⟨m', enabled, fuel, ran⟩

/-- Two waiters, an exit and a reap end with a sound queue. -/
theorem fifo_run_queueInvariant_sample :
    ∃ m, Run (Disciplined sampleAllocator fifoAllow) sampleStart
        [.create (some 7) 0 2, .create (some 7) 0 2, .schedule, .wait 2 true, .exit 5, .schedule,
          .resume, .block] m ∧
      ∃ queue cur idle, QueueInvariant m.kernel queue cur idle := by
  obtain ⟨m, run, _⟩ := exists_run sampleAllocator fifoAllow 20 sampleStart
    [.create (some 7) 0 2, .create (some 7) 0 2, .schedule, .wait 2 true, .exit 5, .schedule, .resume,
      .block] (fun _ => true) (by decide +kernel)
  exact ⟨m, run, (fifo_run_queueInvariant sampleStart_booted run).1⟩

/-- The objects that a task must own: its control block, kernel stack and context, and the
register frame unless it is idle or has terminated. -/
def resources (s : Kernel H) (p : Addr) : List (Option Addr) :=
  if s.task 0 = some p ∨ (s.procs p).state = .terminated then
    [some p, (s.procs p).kernelStack, (s.procs p).context]
  else [some p, (s.procs p).kernelStack, (s.procs p).context, (s.procs p).ptRegs]

/-- A usable process is a live control block with a live context. -/
def Usable (A : Allocator H) (s : Kernel H) (p : Addr) : Prop :=
  p ∈ A.live s.heap ∧ ∃ ctx, (s.procs p).context = some ctx ∧ ctx ∈ A.live s.heap

/-- Each live object past the base is one resource of one task, no pointer was freed while it was
not live, and every pointer of the kernel leads to a usable process. -/
structure OwnedOnce (A : Allocator H) (base : Finset Addr) (s : Kernel H) : Prop where
  present : ∀ p, s.InTable p → ∀ r ∈ resources s p, r.isSome
  nodup : ∀ p, s.InTable p → (resources s p).Nodup
  disjoint : ∀ p q, s.InTable p → s.InTable q → p ≠ q → ∀ a, some a ∈ resources s p →
    some a ∉ resources s q
  outside : ∀ p, s.InTable p → ∀ a, some a ∈ resources s p → a ∉ base
  live : ∀ a, a ∈ A.live s.heap ↔ a ∈ base ∨ ∃ p, s.InTable p ∧ some a ∈ resources s p
  noStray : s.strayFrees = []
  table : ∀ p, s.InTable p → Usable A s p
  current : ∃ cur, s.current = some cur ∧ Usable A s cur
  queue : ∃ queue, Represents s queue ∧ ∀ p ∈ queue, Usable A s p

/-- The resources of a task are the objects that its fields point to. -/
theorem Stable.resources_eq {base : Finset Addr} {s : Kernel H} (stable : Stable A base s) {p : Addr}
    (member : s.InTable p) : resources s p = (objects s p).map some := by
  obtain ⟨stack, hasStack⟩ := Option.isSome_iff_exists.mp (stable.owns.stack p member)
  obtain ⟨ctx, hasCtx⟩ := Option.isSome_iff_exists.mp (stable.owns.context p member)
  have frame := stable.regs p member
  unfold resources objects
  cases regs : (s.procs p).ptRegs with
  | none =>
      rw [if_pos (frame.mp regs)]
      simp [hasStack, hasCtx]
  | some _ =>
      rw [if_neg fun reason => by simp [frame.mpr reason] at regs]
      simp [hasStack, hasCtx]

theorem Stable.mem_resources {base : Finset Addr} {s : Kernel H} (stable : Stable A base s)
    {p a : Addr} (member : s.InTable p) : some a ∈ resources s p ↔ a ∈ objects s p := by
  rw [stable.resources_eq member]
  simp

theorem Owns.usable {base : Finset Addr} {s : Kernel H} (owns : Owns A base s) {p : Addr}
    (member : s.InTable p) : Usable A s p := by
  obtain ⟨ctx, held⟩ := Option.isSome_iff_exists.mp (owns.context p member)
  refine ⟨owns.live_of_inTable member, ctx, held, ?_⟩
  exact owns.partition.mem_live (k := p) member (by simp [objects, held])

theorem KernelInv.ownedOnce {base : Finset Addr} {s : Kernel H} {f : Fifo Addr}
    (inv : KernelInv A base s f) : OwnedOnce A base s := by
  have partition := inv.owns.partition
  exact {
    present := by
      intro p member r listed
      rw [inv.resources_eq member] at listed
      obtain ⟨a, _, rfl⟩ := List.mem_map.mp listed
      rfl
    nodup := by
      intro p member
      rw [inv.resources_eq member]
      exact (partition.nodup p member).map (Option.some_injective _)
    disjoint := by
      intro p q left right different a held
      rw [inv.mem_resources left] at held
      rw [inv.mem_resources right]
      exact partition.disjoint p left q right different a held
    outside := by
      intro p member a held
      rw [inv.mem_resources member] at held
      exact partition.outside p member a held
    live := by
      intro a
      rw [partition.exact]
      constructor
      · rintro (inBase | ⟨p, member, held⟩)
        · exact Or.inl inBase
        · exact Or.inr ⟨p, member, (inv.mem_resources member).mpr held⟩
      · rintro (inBase | ⟨p, member, held⟩)
        · exact Or.inl inBase
        · exact Or.inr ⟨p, member, (inv.mem_resources member).mp held⟩
    noStray := inv.owns.noStray
    table := fun p member => inv.owns.usable member
    current := ⟨f.current, inv.simulates.current, inv.owns.usable inv.current_inTable⟩
    queue := by
      refine ⟨f.queue, inv.simulates.queue, ?_⟩
      intro p member
      exact inv.owns.usable ((inv.coherent.ready p).mp member).1 }

/-- In every state of every FIFO run the process subsystem owns each of its objects once. -/
theorem fifo_run_ownedOnce (booted : Booted A heap start)
    (run : Run (Disciplined A fifoAllow) start ops m) : OwnedOnce A (A.live heap) m.kernel := by
  obtain ⟨f, inv⟩ := fifo_run_inv booted run
  exact inv.ownedOnce

/-- A run in which one task has terminated and another one was reaped. -/
theorem fifo_run_ownedOnce_sample :
    ∃ m, Run (Disciplined sampleAllocator fifoAllow) sampleStart
        [.create (some 7) 0 2, .create (some 7) 0 2, .schedule, .wait 2 true, .exit 5, .schedule,
          .resume, .exit 0] m ∧
      OwnedOnce sampleAllocator (sampleAllocator.live ⟨∅, 100⟩) m.kernel := by
  obtain ⟨m, run, _⟩ := exists_run sampleAllocator fifoAllow 20 sampleStart
    [.create (some 7) 0 2, .create (some 7) 0 2, .schedule, .wait 2 true, .exit 5, .schedule, .resume,
      .exit 0] (fun _ => true) (by decide +kernel)
  exact ⟨m, run, fifo_run_ownedOnce sampleStart_booted run⟩

section OnHeap
open Mm

/-- With `heap.c` as the allocator the allocated blocks are exactly the objects of the tasks. -/
theorem fifo_run_onHeap {h : Heap} {origin size : Nat} {valid : ValidRegion origin size}
    {start m : Machine OrderedHeap} {ops : List Proc.Op}
    (booted : Booted heapAllocator (.boot h valid) start)
    (run : Run (Disciplined heapAllocator fifoAllow) start ops m) :
    ∃ blocks, Good m.kernel.heap.toClient blocks ∧
      ∀ a, (∃ b ∈ blocks, b.free = false ∧ a = b.addr + 32 ∧ a < 2 ^ 64) ↔
        ∃ p, m.kernel.InTable p ∧ a ∈ objects m.kernel p := by
  obtain ⟨f, inv⟩ := fifo_run_inv booted run
  obtain ⟨blocks, good⟩ := m.kernel.heap.ordered
  refine ⟨blocks, good, ?_⟩
  intro a
  have owned := inv.owns.partition.exact a
  have fresh : a ∉ heapAllocator.live (.boot h valid) := Finset.notMem_empty a
  rw [or_iff_right fresh] at owned
  rw [← good.live a]
  exact owned

end OnHeap

end OsKernel.Proc
