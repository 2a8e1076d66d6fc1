import OsKernel.Library.Partition
import OsKernel.Process.TaskTable

/-
This file accounts for the objects that the process subsystem allocates.
-/

namespace OsKernel.Proc
open OsKernel.Library

variable {H : Type} {A : Allocator H}

/-- The objects of a process are its control block and the ones its fields point to. -/
def objects (s : Kernel H) (p : Addr) : List Addr :=
  p :: ((s.procs p).kernelStack.toList ++
    ((s.procs p).context.toList ++ (s.procs p).ptRegs.toList))

/-- The table owns every live object past the base, and nothing was freed in error. -/
structure Owns (A : Allocator H) (base : Finset Addr) (s : Kernel H) : Prop where
  partition : Partition base {p | s.InTable p} (objects s) (A.live s.heap)
  stack : ∀ p, s.InTable p → (s.procs p).kernelStack.isSome
  context : ∀ p, s.InTable p → (s.procs p).context.isSome
  noMap : ∀ p, s.InTable p → (s.procs p).mm = none
  noStray : s.strayFrees = []

theorem objects_congr {s s' : Kernel H} {p : Addr}
    (same : (s'.procs p).identity = (s.procs p).identity) : objects s' p = objects s p := by
  have stack : (s'.procs p).kernelStack = (s.procs p).kernelStack := by
    have field := congrArg Process.kernelStack same
    exact field
  have context : (s'.procs p).context = (s.procs p).context := by
    have field := congrArg Process.context same
    exact field
  have regs : (s'.procs p).ptRegs = (s.procs p).ptRegs := by
    have field := congrArg Process.ptRegs same
    exact field
  simp only [objects, stack, context, regs]

/-- The processes that stay in the table keep what their fields point to. -/
theorem Owns.carry {base : Finset Addr} {s s' : Kernel H} (owns : Owns A base s)
    (partition : Partition base {p | s'.InTable p} (objects s') (A.live s'.heap))
    (older : ∀ p, s'.InTable p → s.InTable p)
    (stack : ∀ p, s.InTable p → (s'.procs p).kernelStack = (s.procs p).kernelStack)
    (context : ∀ p, s.InTable p → (s'.procs p).context = (s.procs p).context)
    (noMap : ∀ p, s.InTable p → (s'.procs p).mm = (s.procs p).mm)
    (noStray : s'.strayFrees = s.strayFrees) : Owns A base s' where
  partition := partition
  stack := by
    intro p member
    rw [stack p (older p member)]
    exact owns.stack p (older p member)
  context := by
    intro p member
    rw [context p (older p member)]
    exact owns.context p (older p member)
  noMap := by
    intro p member
    rw [noMap p (older p member)]
    exact owns.noMap p (older p member)
  noStray := noStray.trans owns.noStray

/-- The data of the listed processes, the table and the live set determine the ownership. -/
theorem Owns.congr {base : Finset Addr} {s s' : Kernel H} (owns : Owns A base s)
    (tasks : s'.task = s.task) (live : A.live s'.heap = A.live s.heap)
    (noStray : s'.strayFrees = s.strayFrees)
    (same : ∀ p, s.InTable p → (s'.procs p).identity = (s.procs p).identity) : Owns A base s' := by
  have members := Kernel.inTable_congr tasks
  have field {β : Type} (get : Process → β) (stable : ∀ q : Process, get q.identity = get q)
      (p : Addr) (member : s.InTable p) : get (s'.procs p) = get (s.procs p) := by
    rw [← stable, same p member, stable]
  have keys : {p | s'.InTable p} = {p | s.InTable p} := Set.ext members
  have partition : Partition base {p | s'.InTable p} (objects s') (A.live s'.heap) := by
    rw [keys]
    exact owns.partition.congr (fun p member => objects_congr (same p member)) (by simp [live])
  exact owns.carry partition (fun p member => (members p).mp member)
    (field Process.kernelStack fun _ => rfl) (field Process.context fun _ => rfl)
    (field Process.mm fun _ => rfl) noStray

theorem Owns.of_sameTasks {base : Finset Addr} {s s' : Kernel H} (owns : Owns A base s)
    (same : SameTasks s s') : Owns A base s' :=
  owns.congr same.task (by rw [same.heap]) same.strayFrees fun p _ => same.identity p

theorem mem_objects_self (s : Kernel H) (p : Addr) : p ∈ objects s p := by simp [objects]

/-- Every process of the table is a live object. -/
theorem Owns.live_of_inTable {base : Finset Addr} {s : Kernel H} (owns : Owns A base s) {p : Addr}
    (member : s.InTable p) : p ∈ A.live s.heap :=
  owns.partition.mem_live (k := p) member (mem_objects_self s p)

section Allocation

theorem Kernel.kmalloc_some {s s' : Kernel H} {size : Nat} {p : Addr}
    (issued : s.kmalloc A size = (some p, s')) :
    ∃ heap, s' = { s with heap := heap } ∧ p ∉ A.live s.heap ∧
      A.live heap = insert p (A.live s.heap) := by
  simp only [kmalloc, Prod.mk.injEq] at issued
  obtain ⟨found, rfl⟩ := issued
  obtain ⟨dead, grown⟩ := A.kmalloc_some (Prod.ext found rfl : A.kmalloc s.heap size = (some p, _))
  exact ⟨_, rfl, dead, grown⟩

theorem Kernel.kmalloc_none {s s' : Kernel H} {size : Nat}
    (refused : s.kmalloc A size = (none, s')) :
    ∃ heap, s' = { s with heap := heap } ∧ A.live heap = A.live s.heap := by
  simp only [kmalloc, Prod.mk.injEq] at refused
  obtain ⟨missing, rfl⟩ := refused
  exact ⟨_, rfl, A.kmalloc_none (Prod.ext missing rfl : A.kmalloc s.heap size = (none, _))⟩

/-- Freeing a live object records nothing. -/
theorem Kernel.kfree_of_live {s : Kernel H} {p : Addr} (member : p ∈ A.live s.heap) :
    ∃ heap, s.kfree A p = { s with heap := heap } ∧ A.live heap = (A.live s.heap).erase p := by
  refine ⟨A.kfree s.heap p, ?_, A.kfree_live member⟩
  simp only [kfree, if_pos member]

end Allocation

section Create

/-- While a process is being built, the state differs from `s` only in its control block, its
context and the heap, and the objects of `got` are the new live ones. -/
structure Pending (A : Allocator H) (s : Kernel H) (p : Addr) (pid : Int) (got : List Addr)
    (proc : Process) (t : Kernel H) : Prop where
  current : t.current = s.current
  task : t.task = s.task
  taskCount : t.taskCount = s.taskCount
  readyQueue : t.readyQueue = s.readyQueue
  strayFrees : t.strayFrees = s.strayFrees
  nextPid : t.nextPid = pid
  others : ∀ q, q ≠ p → t.procs q = s.procs q
  process : t.procs p = proc
  fresh : p ∉ A.live s.heap
  nodup : got.Nodup
  dead : ∀ a ∈ got, a ∉ A.live s.heap
  live : ∀ a, a ∈ A.live t.heap ↔ a ∈ A.live s.heap ∨ a ∈ got

variable {s t t' : Kernel H} {p : Addr} {pid : Int} {got : List Addr} {proc : Process}

/-- The control block is the first new object. -/
theorem Pending.start {size : Nat} (issued : s.kmalloc A size = (some p, t)) :
    Pending A s p s.nextPid [p] (s.procs p) t := by
  obtain ⟨heap, rfl, dead, live⟩ := Kernel.kmalloc_some issued
  refine ⟨rfl, rfl, rfl, rfl, rfl, rfl, fun _ _ => rfl, rfl, dead, by simp, by simpa using dead, ?_⟩
  intro a
  simp [live, or_comm]

theorem Pending.issue {size : Nat} {a : Addr} (pending : Pending A s p pid got proc t)
    (issued : t.kmalloc A size = (some a, t')) : Pending A s p pid (a :: got) proc t' := by
  obtain ⟨heap, rfl, dead, live⟩ := Kernel.kmalloc_some issued
  rw [pending.live, not_or] at dead
  refine ⟨pending.current, pending.task, pending.taskCount, pending.readyQueue,
    pending.strayFrees, pending.nextPid, pending.others, pending.process, pending.fresh,
    List.nodup_cons.mpr ⟨dead.2, pending.nodup⟩, ?_, ?_⟩
  · intro b member
    rcases List.mem_cons.mp member with rfl | old
    · exact dead.1
    · exact pending.dead b old
  · intro b
    rw [live, Finset.mem_insert, pending.live, List.mem_cons]
    tauto

theorem Pending.refuse {size : Nat} (pending : Pending A s p pid got proc t)
    (refused : t.kmalloc A size = (none, t')) : Pending A s p pid got proc t' := by
  obtain ⟨heap, rfl, live⟩ := Kernel.kmalloc_none refused
  refine ⟨pending.current, pending.task, pending.taskCount, pending.readyQueue,
    pending.strayFrees, pending.nextPid, pending.others, pending.process, pending.fresh,
    pending.nodup, pending.dead, ?_⟩
  intro b
  rw [live, pending.live]

theorem Pending.onProc (pending : Pending A s p pid got proc t) (f : Process → Process) :
    Pending A s p pid got (f proc) (t.onProc p f) where
  current := pending.current
  task := pending.task
  taskCount := pending.taskCount
  readyQueue := pending.readyQueue
  strayFrees := pending.strayFrees
  nextPid := pending.nextPid
  others q different := (t.onProc_of_ne p q f different).trans (pending.others q different)
  process := by rw [t.onProc_self, pending.process]
  fresh := pending.fresh
  nodup := pending.nodup
  dead := pending.dead
  live := pending.live

theorem Pending.contexts (pending : Pending A s p pid got proc t) (contexts : Addr → Context) :
    Pending A s p pid got proc { t with contexts := contexts } :=
  ⟨pending.current, pending.task, pending.taskCount, pending.readyQueue, pending.strayFrees,
    pending.nextPid, pending.others, pending.process, pending.fresh, pending.nodup, pending.dead,
    pending.live⟩

/-- An error path frees the objects in the reverse of the order in which they came. -/
theorem Pending.kfree {a : Addr} (pending : Pending A s p pid (a :: got) proc t) :
    Pending A s p pid got proc (t.kfree A a) := by
  have member : a ∈ A.live t.heap := (pending.live a).mpr (by simp)
  obtain ⟨heap, equal, live⟩ := Kernel.kfree_of_live member
  rw [equal]
  obtain ⟨outside, nodup⟩ := List.nodup_cons.mp pending.nodup
  refine ⟨pending.current, pending.task, pending.taskCount, pending.readyQueue,
    pending.strayFrees, pending.nextPid, pending.others, pending.process, pending.fresh,
    nodup, fun b old => pending.dead b (by simp [old]), ?_⟩
  intro b
  rw [live, Finset.mem_erase, pending.live, List.mem_cons]
  constructor
  · rintro ⟨different, old | same | rest⟩
    · exact Or.inl old
    · exact absurd same different
    · exact Or.inr rest
  · rintro (old | rest)
    · exact ⟨fun same => pending.dead a (by simp) (same ▸ old), Or.inl old⟩
    · exact ⟨fun same => outside (same ▸ rest), Or.inr (Or.inr rest)⟩

/-- A failed creation changes no live object and nothing that the table or the queue shows. -/
structure CreateFailed (A : Allocator H) (s s' : Kernel H) : Prop where
  current : s'.current = s.current
  task : s'.task = s.task
  taskCount : s'.taskCount = s.taskCount
  readyQueue : s'.readyQueue = s.readyQueue
  strayFrees : s'.strayFrees = s.strayFrees
  procs : ∀ q ∈ A.live s.heap, s'.procs q = s.procs q
  live : A.live s'.heap = A.live s.heap
  nextPid : s'.nextPid = s.nextPid ∨ s'.nextPid = wrapPid (s.nextPid + 1)

theorem CreateFailed.refl (A : Allocator H) (s : Kernel H) : CreateFailed A s s :=
  ⟨rfl, rfl, rfl, rfl, rfl, fun _ _ => rfl, rfl, Or.inl rfl⟩

/-- When everything is returned, no trace is left. -/
theorem Pending.failed (pending : Pending A s p (wrapPid (s.nextPid + 1)) [] proc t) :
    CreateFailed A s t where
  current := pending.current
  task := pending.task
  taskCount := pending.taskCount
  readyQueue := pending.readyQueue
  strayFrees := pending.strayFrees
  procs q member := pending.others q fun same => pending.fresh (same ▸ member)
  live := by
    ext a
    simpa using pending.live a
  nextPid := Or.inr pending.nextPid

/-- The control block of a new process, once its three objects are there. -/
def builtProcess (pid : Int) (priority : Nat) (stack ctx regs : Addr) : Process :=
  { newProcess pid priority with
    kernelStack := some stack
    context := some ctx
    ptRegs := some regs }

/-- Just before it is admitted, a new process owns four new objects. -/
def CreateReady (A : Allocator H) (s : Kernel H) (priority : Nat) (p : Addr) (t : Kernel H) : Prop :=
  s.taskCount < 64 ∧ ∃ stack ctx regs,
    Pending A s p (wrapPid (s.nextPid + 1)) [regs, ctx, stack, p]
      (builtProcess s.nextPid priority stack ctx regs) t

/-- An admitted process keeps its own data. -/
theorem processAdmit_identity (s : Kernel H) (p q : Addr) :
    ((processAdmit s p).procs q).identity = (s.procs q).identity := by
  have added := (schedulerAdd_relinked (installTask (processSetState s (some p) .ready) p) p).sameTasks
  have ready := (rescheduled_onProc s p .ready).sameTasks
  obtain ⟨task, count, installed⟩ := installTask_eq (processSetState s (some p) .ready) p
  unfold processAdmit
  rw [added.identity q, installed]
  exact ready.identity q

/-- The requests of a creation, in their order. -/
def createSizes : List Nat := [sizeofProcess, 4096, sizeofContext, sizeofPtRegs]

/-- A creation has no entry point, no room in the table or not enough memory. -/
def CreateRefused (A : Allocator H) (s : Kernel H) (entry : Option Addr) : Prop :=
  entry = none ∨ 64 ≤ s.taskCount ∨ allocates A s.heap createSizes = false

/-- A failed creation also keeps all live contexts, and it gives its objects back in the reverse order. -/
structure CreateUndone (A : Allocator H) (s s' : Kernel H) : Prop extends CreateFailed A s s' where
  contexts : ∀ a ∈ A.live s.heap, s'.contexts a = s.contexts a
  unwound : ∀ holds, Unwinding A createSizes holds → holds [] s.heap → holds [] s'.heap

/-- The answer of the allocator and the heap behind it. -/
theorem Kernel.kmalloc_heap {answer : Option Addr} {size : Nat} (asked : s.kmalloc A size = (answer, t)) :
    A.kmalloc s.heap size = (answer, t.heap) := by
  simp only [kmalloc, Prod.mk.injEq] at asked
  obtain ⟨found, rfl⟩ := asked
  exact Prod.ext found rfl

/-- What a creation has done to the heap and to the contexts while it holds the objects of `got`. -/
structure Traced (A : Allocator H) (s : Kernel H) (got : List Addr) (heap : H) (contexts : Addr → Context) :
    Prop where
  kept : ∀ a ∈ A.live s.heap, contexts a = s.contexts a
  tracked : ∀ holds, Unwinding A createSizes holds → holds [] s.heap → holds got heap

theorem Traced.start (A : Allocator H) (s : Kernel H) : Traced A s [] s.heap s.contexts :=
  ⟨fun _ _ => rfl, fun _ _ initial => initial⟩

theorem Traced.issue {size : Nat} {a : Addr} (issued : t.kmalloc A size = (some a, t')) (listed : size ∈ createSizes)
    (traced : Traced A s got t.heap t.contexts) : Traced A s (a :: got) t'.heap t'.contexts := by
  have answer := Kernel.kmalloc_heap issued
  obtain ⟨heap, rfl, _⟩ := Kernel.kmalloc_some issued
  refine ⟨traced.kept, ?_⟩
  intro holds rule initial
  exact rule.issue listed (traced.tracked holds rule initial) answer

theorem Traced.refuse {size : Nat} (refused : t.kmalloc A size = (none, t')) (listed : size ∈ createSizes)
    (traced : Traced A s got t.heap t.contexts) : Traced A s got t'.heap t'.contexts := by
  have answer := Kernel.kmalloc_heap refused
  obtain ⟨heap, rfl, _⟩ := Kernel.kmalloc_none refused
  refine ⟨traced.kept, ?_⟩
  intro holds rule initial
  exact rule.refuse listed (traced.tracked holds rule initial) answer

theorem Traced.kfree {a : Addr} (traced : Traced A s (a :: got) t.heap t.contexts) :
    Traced A s got (t.kfree A a).heap (t.kfree A a).contexts := by
  refine ⟨traced.kept, ?_⟩
  intro holds rule initial
  exact rule.free (traced.tracked holds rule initial)

/-- A new context is written where nothing was live. -/
theorem Traced.fill {heap : H} {contexts : Addr → Context} {ctx : Addr} (traced : Traced A s got heap contexts)
    (dead : ctx ∉ A.live s.heap) (content : Context) :
    Traced A s got heap (Function.update contexts ctx content) := by
  refine ⟨?_, traced.tracked⟩
  intro a member
  have other : a ≠ ctx := fun same => dead (same ▸ member)
  rw [Function.update_of_ne other, traced.kept a member]

theorem CreateFailed.undone (failed : CreateFailed A s t) (traced : Traced A s [] t.heap t.contexts) :
    CreateUndone A s t := ⟨failed, traced.kept, traced.tracked⟩

/-- A creation is refused and leaves no trace, or four allocations succeed and the process is admitted. -/
theorem processCreate_outcome (A : Allocator H) (s : Kernel H) (entry : Option Addr) (arg priority : Nat) :
    (CreateRefused A s entry ∧ (processCreate A s entry arg priority).1 = -1 ∧
      CreateUndone A s (processCreate A s entry arg priority).2) ∨
    (¬ CreateRefused A s entry ∧ ∃ p t, CreateReady A s priority p t ∧
      processCreate A s entry arg priority = (s.nextPid, processAdmit t p)) := by
  have untouched : CreateUndone A s s := (CreateFailed.refl A s).undone (.start A s)
  unfold processCreate
  cases entry with
  | none => exact Or.inl ⟨Or.inl rfl, rfl, untouched⟩
  | some entry =>
      dsimp only
      by_cases full : 64 ≤ s.taskCount
      · rw [if_pos full]
        exact Or.inl ⟨Or.inr (Or.inl full), rfl, untouched⟩
      · rw [if_neg full]
        rcases first : s.kmalloc A sizeofProcess with ⟨_ | p, s₁⟩
        · have traced := Traced.refuse first (by simp [createSizes]) (.start A s)
          have heap₁ := Kernel.kmalloc_heap first
          obtain ⟨heap, rfl, live⟩ := Kernel.kmalloc_none first
          have failed : CreateFailed A s { s with heap := heap } :=
            ⟨rfl, rfl, rfl, rfl, rfl, fun _ _ => rfl, live, Or.inl rfl⟩
          refine Or.inl ⟨Or.inr (Or.inr ?_), rfl, failed.undone traced⟩
          simp [allocates, createSizes, heap₁]
        · have started := Pending.start first
          have traced₁ := Traced.issue first (by simp [createSizes]) (.start A s)
          have heap₁ := Kernel.kmalloc_heap first
          have numbered : Pending A s p (wrapPid (s.nextPid + 1)) [p] (newProcess s.nextPid priority)
              { s₁.onProc p fun _ => newProcess s₁.nextPid priority with
                nextPid := wrapPid (s₁.nextPid + 1) } := by
            have written := started.onProc fun _ => newProcess s.nextPid priority
            rw [started.nextPid]
            exact { written with nextPid := rfl }
          dsimp only
          rcases second : Kernel.kmalloc A { s₁.onProc p fun _ => newProcess s₁.nextPid priority with
            nextPid := wrapPid (s₁.nextPid + 1) } 4096 with ⟨answer, s₂⟩
          have heap₂ := Kernel.kmalloc_heap second
          change A.kmalloc s₁.heap 4096 = _ at heap₂
          rcases answer with _ | stack
          · have traced := Traced.refuse second (by simp [createSizes]) traced₁
            refine Or.inl ⟨Or.inr (Or.inr ?_), rfl, (numbered.refuse second).kfree.failed.undone traced.kfree⟩
            simp [allocates, createSizes, heap₁, heap₂]
          · have stacked := (numbered.issue second).onProc fun q => { q with kernelStack := some stack }
            have traced₂ := Traced.issue second (by simp [createSizes]) traced₁
            dsimp only
            rcases third : Kernel.kmalloc A (s₂.onProc p fun q => { q with kernelStack := some stack })
              sizeofContext with ⟨answer, s₃⟩
            have heap₃ := Kernel.kmalloc_heap third
            change A.kmalloc s₂.heap sizeofContext = _ at heap₃
            rcases answer with _ | ctx
            · have traced := Traced.refuse third (by simp [createSizes]) traced₂
              refine Or.inl ⟨Or.inr (Or.inr ?_), rfl,
                (stacked.refuse third).kfree.kfree.failed.undone traced.kfree.kfree⟩
              simp [allocates, createSizes, heap₁, heap₂, heap₃]
            · have switched := (stacked.issue third).onProc fun q => { q with context := some ctx }
              have filled := switched.contexts
                (Function.update s₃.contexts ctx (contextInit entry arg (stack + 4096)))
              have traced₃ := (Traced.issue third (by simp [createSizes]) traced₂).fill
                (switched.dead ctx (by simp)) (contextInit entry arg (stack + 4096))
              dsimp only
              rcases fourth : Kernel.kmalloc A
                { s₃.onProc p fun q => { q with context := some ctx } with
                  contexts := Function.update s₃.contexts ctx
                    (contextInit entry arg (stack + 4096)) } sizeofPtRegs with ⟨answer, s₄⟩
              have heap₄ := Kernel.kmalloc_heap fourth
              change A.kmalloc s₃.heap sizeofPtRegs = _ at heap₄
              rw [show (s₃.onProc p fun q => { q with context := some ctx }).contexts =
                s₃.contexts from rfl, fourth]
              rcases answer with _ | regs
              · have traced := Traced.refuse fourth (by simp [createSizes]) traced₃
                refine Or.inl ⟨Or.inr (Or.inr ?_), rfl,
                  (filled.refuse fourth).kfree.kfree.kfree.failed.undone traced.kfree.kfree.kfree⟩
                simp [allocates, createSizes, heap₁, heap₂, heap₃, heap₄]
              · have built := (filled.issue fourth).onProc fun q => { q with ptRegs := some regs }
                refine Or.inr ⟨?_, p, _, ⟨by omega, stack, ctx, regs, built⟩, ?_⟩
                · simp [CreateRefused, full, allocates, createSizes, heap₁, heap₂, heap₃, heap₄]
                · have pid := congrArg Process.pid (processAdmit_identity
                    (s₄.onProc p fun q => { q with ptRegs := some regs }) p p)
                  change ((processAdmit _ p).procs p).pid = _ at pid
                  dsimp only
                  rw [pid]
                  exact Prod.ext (congrArg Process.pid built.process) rfl

/-- A creation fails without a trace, or four allocations succeed and the process is admitted. -/
theorem processCreate_cases (A : Allocator H) (s : Kernel H) (entry : Option Addr)
    (arg priority : Nat) :
    ((processCreate A s entry arg priority).1 = -1 ∧
      CreateFailed A s (processCreate A s entry arg priority).2) ∨
    ∃ p t, CreateReady A s priority p t ∧
      processCreate A s entry arg priority = (s.nextPid, processAdmit t p) := by
  rcases processCreate_outcome A s entry arg priority with ⟨_, failed, undone⟩ | ⟨_, created⟩
  · exact Or.inl ⟨failed, undone.toCreateFailed⟩
  · exact Or.inr created

/-- A failed creation keeps the ownership. -/
theorem Owns.createFailed {base : Finset Addr} (owns : Owns A base s) (failed : CreateFailed A s t) :
    Owns A base t :=
  owns.congr failed.task failed.live failed.strayFrees fun q member => by
    rw [failed.procs q (owns.live_of_inTable member)]

theorem TableOk.createFailed {base : Finset Addr} (ok : TableOk s) (owns : Owns A base s)
    (failed : CreateFailed A s t) : TableOk t :=
  ok.congr failed.task failed.taskCount fun q member => by
    rw [failed.procs q (owns.live_of_inTable member)]

end Create

section Admit

/-- The new process stands in exactly one slot, and nothing else of the table changed. -/
structure Admitted (s s' : Kernel H) (p : Addr) : Prop where
  slot : ∃ i, s.task i = none ∧ s'.task = Function.update s.task i (some p)
  current : s'.current = s.current
  nextPid : s'.nextPid = wrapPid (s.nextPid + 1)
  absent : ¬ s.InTable p
  pid : (s'.procs p).pid = s.nextPid
  others : ∀ q, q ≠ p → (s'.procs q).identity = (s.procs q).identity
  regs : (s'.procs p).ptRegs.isSome

theorem Admitted.inTable {s s' : Kernel H} {p : Addr} (admitted : Admitted s s' p) (q : Addr) :
    s'.InTable q ↔ q = p ∨ s.InTable q := by
  obtain ⟨i, free, tasks⟩ := admitted.slot
  constructor
  · rintro ⟨j, entry⟩
    rw [tasks] at entry
    by_cases same : j = i
    · subst same
      exact Or.inl (by simpa using entry.symm)
    · rw [Function.update_of_ne same] at entry
      exact Or.inr ⟨j, entry⟩
  · rintro (rfl | ⟨j, entry⟩)
    · exact ⟨i, by simp [tasks]⟩
    · have different : j ≠ i := by
        intro same
        rw [same, free] at entry
        simp at entry
      exact ⟨j, by rw [tasks, Function.update_of_ne different, entry]⟩

/-- The new process is none of the old ones. -/
theorem Admitted.ne {s s' : Kernel H} {p q : Addr} (admitted : Admitted s s' p) (member : s.InTable q) : q ≠ p := by
  rintro rfl
  exact admitted.absent member

/-- The entries of the other processes are where they were. -/
theorem Admitted.entry {s s' : Kernel H} {p q : Addr} {i : Fin 64} (admitted : Admitted s s' p) (other : q ≠ p)
    (entry : s'.task i = some q) : s.task i = some q := by
  obtain ⟨slot, _, tasks⟩ := admitted.slot
  rw [tasks] at entry
  by_cases same : i = slot
  · subst same
    rw [Function.update_self] at entry
    exact absurd (Option.some.inj entry).symm other
  · rwa [Function.update_of_ne same] at entry

/-- Slot 0 is never free, so it keeps its process. -/
theorem Admitted.first {s s' : Kernel H} {p : Addr} (admitted : Admitted s s' p) (ok : TableOk s) :
    s'.task 0 = s.task 0 := by
  obtain ⟨slot, free, tasks⟩ := admitted.slot
  obtain ⟨idle, first, _⟩ := ok.idle
  rw [tasks, Function.update_of_ne]
  intro same
  rw [← same, first] at free
  simp at free

variable {s t : Kernel H} {p : Addr} {priority : Nat} {base : Finset Addr}

/-- The new address is not in the table, since every process of the table is live. -/
theorem CreateReady.absent (ready : CreateReady A s priority p t) (owns : Owns A base s) :
    ¬ s.InTable p := by
  obtain ⟨_, _, _, _, pending⟩ := ready
  exact fun member => pending.fresh (owns.live_of_inTable member)

/-- Admission keeps the table in order and installs exactly one process. -/
theorem CreateReady.admitted (ready : CreateReady A s priority p t) (ok : TableOk s)
    (owns : Owns A base s) : TableOk (processAdmit t p) ∧ Admitted s (processAdmit t p) p := by
  have absent := ready.absent owns
  obtain ⟨room, stack, ctx, regs, pending⟩ := ready
  have tableT : TableOk (processSetState t (some p) .ready) := by
    have built : TableOk t := ok.congr pending.task pending.taskCount fun q member => by
      rw [pending.others q fun equal => absent (equal ▸ member)]
    exact built.of_sameTasks (rescheduled_onProc t p .ready).sameTasks
  have absentT : ¬ (processSetState t (some p) .ready).InTable p := by
    rintro ⟨i, entry⟩
    exact absent ⟨i, by rw [← pending.task]; exact entry⟩
  have roomT : (processSetState t (some p) .ready).taskCount < 64 := by
    change t.taskCount < 64
    rw [pending.taskCount]
    exact room
  obtain ⟨installed, i, free, tasks⟩ := tableT.installTask roomT absentT
  have added := schedulerAdd_relinked (installTask (processSetState t (some p) .ready) p) p
  have fields : (installTask (processSetState t (some p) .ready) p).current = t.current ∧
      (installTask (processSetState t (some p) .ready) p).nextPid = t.nextPid := by
    obtain ⟨task, count, slotted⟩ := installTask_eq (processSetState t (some p) .ready) p
    rw [slotted]
    exact ⟨rfl, rfl⟩
  have identity := processAdmit_identity t p
  have self : ((processAdmit t p).procs p).identity =
      (builtProcess s.nextPid priority stack ctx regs).identity := by
    rw [identity p, pending.process]
  refine ⟨installed.of_sameTasks added.sameTasks, ⟨i, ?_, ?_⟩, ?_, ?_, absent, ?_, ?_, ?_⟩
  · rw [← pending.task]
    exact free
  · rw [← pending.task]
    exact added.sameTasks.task.trans tasks
  · exact added.current.trans (fields.1.trans pending.current)
  · exact added.sameTasks.nextPid.trans (fields.2.trans pending.nextPid)
  · have field := congrArg Process.pid self
    exact field
  · intro q different
    rw [identity q, pending.others q different]
  · have field := congrArg Process.ptRegs self
    change ((processAdmit t p).procs p).ptRegs = some regs at field
    rw [field]
    rfl

/-- The new process owns exactly its four objects. -/
theorem CreateReady.owns (ready : CreateReady A s priority p t) (ok : TableOk s)
    (owns : Owns A base s) : Owns A base (processAdmit t p) := by
  obtain ⟨_, admitted⟩ := ready.admitted ok owns
  obtain ⟨room, stack, ctx, regs, pending⟩ := ready
  have self : ((processAdmit t p).procs p).identity =
      (builtProcess s.nextPid priority stack ctx regs).identity := by
    rw [processAdmit_identity t p p, pending.process]
  have field {β : Type} (get : Process → β) (stable : ∀ q : Process, get q.identity = get q) :
      get ((processAdmit t p).procs p) = get (builtProcess s.nextPid priority stack ctx regs) := by
    rw [← stable, self, stable]
  have listed : objects (processAdmit t p) p = [p, stack, ctx, regs] := by
    simp only [objects, field Process.kernelStack (fun _ => rfl),
      field Process.context (fun _ => rfl), field Process.ptRegs (fun _ => rfl)]
    rfl
  have added := (schedulerAdd_relinked (installTask (processSetState t (some p) .ready) p) p).sameTasks
  have fields : (installTask (processSetState t (some p) .ready) p).heap = t.heap ∧
      (installTask (processSetState t (some p) .ready) p).strayFrees = t.strayFrees := by
    obtain ⟨task, count, slotted⟩ := installTask_eq (processSetState t (some p) .ready) p
    rw [slotted]
    exact ⟨rfl, rfl⟩
  have heap : (processAdmit t p).heap = t.heap := added.heap.trans fields.1
  have permuted : ∀ a, a ∈ [p, stack, ctx, regs] ↔ a ∈ [regs, ctx, stack, p] := by
    intro a
    simp only [List.mem_cons, List.not_mem_nil, or_false]
    tauto
  have keys : {q | (processAdmit t p).InTable q} = insert p {q | s.InTable q} := by
    ext q
    exact admitted.inTable q
  have kept : ∀ q, s.InTable q → q ≠ p := fun _ => admitted.ne
  have other {β : Type} (get : Process → β) (stable : ∀ q : Process, get q.identity = get q)
      (q : Addr) (member : s.InTable q) : get ((processAdmit t p).procs q) = get (s.procs q) := by
    rw [← stable, admitted.others q (kept q member), stable]
  have cases {P : Addr → Prop} (new : P p) (old : ∀ q, s.InTable q → P q) (q : Addr)
      (member : (processAdmit t p).InTable q) : P q := by
    rcases (admitted.inTable q).mp member with rfl | earlier
    · exact new
    · exact old q earlier
  exact {
    partition := by
      rw [keys]
      apply owns.partition.insert (k := p) admitted.absent
      · intro q member
        exact objects_congr (admitted.others q (kept q member))
      · rw [listed]
        have reversed := List.nodup_reverse.mpr pending.nodup
        simpa using reversed
      · intro a member
        rw [listed] at member
        exact pending.dead a ((permuted a).mp member)
      · intro a
        rw [listed, permuted, heap]
        exact pending.live a
    stack := by
      apply cases
      · rw [field Process.kernelStack (fun _ => rfl)]
        rfl
      · intro q member
        rw [other Process.kernelStack (fun _ => rfl) q member]
        exact owns.stack q member
    context := by
      apply cases
      · rw [field Process.context (fun _ => rfl)]
        rfl
      · intro q member
        rw [other Process.context (fun _ => rfl) q member]
        exact owns.context q member
    noMap := by
      apply cases
      · rw [field Process.mm (fun _ => rfl)]
        rfl
      · intro q member
        rw [other Process.mm (fun _ => rfl) q member]
        exact owns.noMap q member
    noStray := by
      exact (added.strayFrees.trans fields.2).trans (pending.strayFrees.trans owns.noStray) }

end Admit

section Exit

variable {s : Kernel H} {cur : Addr} {code : Int} {base : Finset Addr}

/-- The exiting process is the only one that changes, apart from the heap. -/
structure Exiting (s : Kernel H) (cur : Addr) (code : Int) (s' : Kernel H) : Prop where
  current : s'.current = s.current
  task : s'.task = s.task
  taskCount : s'.taskCount = s.taskCount
  nextPid : s'.nextPid = s.nextPid
  readyQueue : s'.readyQueue = s.readyQueue
  others : ∀ q, q ≠ cur → s'.procs q = s.procs q
  process : s'.procs cur =
    { s.procs cur with exitCode := code, state := .terminated, ptRegs := none }

/-- The exit code, the state and the register frame are all that an exit writes. -/
theorem Exiting.kept {β : Type} {s' : Kernel H} (exiting : Exiting s cur code s') (get : Process → β)
    (stable : ∀ q : Process, get { q with exitCode := code, state := .terminated, ptRegs := none } = get q)
    (p : Addr) : get (s'.procs p) = get (s.procs p) := by
  by_cases same : p = cur
  · rw [same, exiting.process, stable]
  · rw [exiting.others p same]

theorem Exiting.links {s' : Kernel H} (exiting : Exiting s cur code s') : s'.links = s.links := by
  funext p
  exact exiting.kept Process.next (fun _ => rfl) p

/-- A process without a memory map gives up only its register frame. -/
theorem exitRelease_eq (code : Int) (noMap : (s.procs cur).mm = none) :
    exitRelease A s cur code =
      match (s.procs cur).ptRegs with
      | some regs => ((s.onProc cur fun p => { p with exitCode := code, state := .terminated }).kfree
          A regs).onProc cur fun p => { p with ptRegs := none }
      | none => s.onProc cur fun p => { p with exitCode := code, state := .terminated } := by
  have merged : (s.onProc cur fun p => { p with exitCode := code }).onProc cur
      (fun p => { p with state := .terminated }) =
      s.onProc cur fun p => { p with exitCode := code, state := .terminated } := by
    simp [Kernel.onProc]
  unfold exitRelease processSetState
  dsimp only
  rw [merged]
  cases regs : (s.procs cur).ptRegs with
  | none => simp [noMap, regs]
  | some frame => simp [noMap, regs]

theorem exitRelease_exiting (code : Int) (noMap : (s.procs cur).mm = none) :
    Exiting s cur code (exitRelease A s cur code) := by
  rw [exitRelease_eq code noMap]
  cases regs : (s.procs cur).ptRegs with
  | none =>
      refine ⟨rfl, rfl, rfl, rfl, rfl, fun q different => by simp [different], ?_⟩
      simp [← regs]
  | some frame =>
      refine ⟨rfl, rfl, rfl, rfl, rfl, fun q different => ?_, ?_⟩
      · simp [different, Kernel.kfree]
      · simp [Kernel.kfree]

/-- The exit frees the register frame of the process and nothing else. -/
theorem Owns.exitRelease_partition (owns : Owns A base s) (code : Int) (member : s.InTable cur) :
    Partition base {p | s.InTable p} (objects (exitRelease A s cur code))
        (A.live (exitRelease A s cur code).heap) ∧
      (exitRelease A s cur code).strayFrees = s.strayFrees := by
  have noMap := owns.noMap cur member
  have exiting := exitRelease_exiting (A := A) code noMap
  have other : ∀ p, p ≠ cur → objects (exitRelease A s cur code) p = objects s p := by
    intro p different
    simp only [objects, exiting.others p different]
  have released := exitRelease_eq (A := A) code noMap
  cases regs : (s.procs cur).ptRegs with
  | none =>
      rw [regs] at released
      dsimp only at released
      refine ⟨owns.partition.congr ?_ ?_, by rw [released]; rfl⟩
      · intro p _
        by_cases same : p = cur
        · subst same
          simp only [objects, exiting.process, regs]
        · exact other p same
      · intro a
        rw [released]
        rfl
  | some frame =>
      rw [regs] at released
      dsimp only at released
      have held : frame ∈ objects s cur := by simp [objects, regs]
      have live : frame ∈ A.live (s.onProc cur fun p =>
          { p with exitCode := code, state := .terminated }).heap :=
        owns.partition.mem_live (k := cur) member held
      obtain ⟨heap, freed, smaller⟩ := Kernel.kfree_of_live live
      rw [freed] at released
      have heapEq : (exitRelease A s cur code).heap = heap := by
        rw [released]
        rfl
      refine ⟨?_, by rw [released]; rfl⟩
      rw [heapEq, smaller]
      apply owns.partition.release (k := cur) member held
      · have shape : objects s cur = (cur :: ((s.procs cur).kernelStack.toList ++
            (s.procs cur).context.toList)) ++ [frame] := by
          simp [objects, regs]
        have apart := owns.partition.nodup cur member
        rw [shape, List.nodup_append] at apart
        have outside : frame ∉ cur :: ((s.procs cur).kernelStack.toList ++
            (s.procs cur).context.toList) := fun clash => apart.2.2 frame clash frame (by simp) rfl
        rw [shape, List.erase_append_right _ outside]
        simp [objects, exiting.process]
      · exact fun p _ different => other p different

/-- The exiting process keeps its other objects. -/
theorem Owns.exitRelease (owns : Owns A base s) (code : Int) (member : s.InTable cur) :
    Owns A base (exitRelease A s cur code) := by
  have exiting := exitRelease_exiting (A := A) code (owns.noMap cur member)
  have inTable := Kernel.inTable_congr exiting.task
  have keys : {p | (OsKernel.Proc.exitRelease A s cur code).InTable p} = {p | s.InTable p} :=
    Set.ext inTable
  obtain ⟨partition, noStray⟩ := owns.exitRelease_partition code member
  rw [← keys] at partition
  exact owns.carry partition (fun p present => (inTable p).mp present)
    (fun p _ => exiting.kept Process.kernelStack (fun _ => rfl) p)
    (fun p _ => exiting.kept Process.context (fun _ => rfl) p)
    (fun p _ => exiting.kept Process.mm (fun _ => rfl) p) noStray

theorem TableOk.exiting {s' : Kernel H} (ok : TableOk s) (exiting : Exiting s cur code s') :
    TableOk s' :=
  ok.congr exiting.task exiting.taskCount fun q _ => exiting.kept Process.pid (fun _ => rfl) q

end Exit

section Reap

variable {s : Kernel H} {target : Addr} {base : Finset Addr}

/-- The table after a reap has one slot less, and only the heap changed besides. -/
structure Reaped (s s' : Kernel H) (target : Addr) : Prop where
  slot : ∃ i, s.task i = some target ∧ s'.task = Function.update s.task i none
  current : s'.current = s.current
  nextPid : s'.nextPid = s.nextPid
  readyQueue : s'.readyQueue = s.readyQueue
  procs : s'.procs = s.procs

/-- After the slot of the target is cleared, the others stand where they stood. -/
theorem Reaped.inTable {s' : Kernel H} (reaped : Reaped s s' target) (ok : TableOk s) (q : Addr) :
    s'.InTable q ↔ s.InTable q ∧ q ≠ target := by
  obtain ⟨i, entry, tasks⟩ := reaped.slot
  constructor
  · rintro ⟨j, holds⟩
    by_cases same : j = i
    · simp [tasks, same] at holds
    · rw [tasks, Function.update_of_ne same] at holds
      refine ⟨⟨j, holds⟩, ?_⟩
      intro equal
      exact same (ok.inj j i target (equal ▸ holds) entry)
  · rintro ⟨⟨j, holds⟩, different⟩
    have other : j ≠ i := by
      intro same
      rw [same, entry] at holds
      exact different (Option.some.inj holds).symm
    exact ⟨j, by rw [tasks, Function.update_of_ne other, holds]⟩

/-- Reaping a process without a register frame frees exactly its three objects. -/
theorem reap_spec (ok : TableOk s) (owns : Owns A base s) (member : s.InTable target)
    (notIdle : s.task 0 ≠ some target) (noRegs : (s.procs target).ptRegs = none) :
    TableOk (reap A s target) ∧ Owns A base (reap A s target) ∧
      Reaped s (reap A s target) target := by
  obtain ⟨i, entry⟩ := member
  obtain ⟨ctx, hasCtx⟩ := Option.isSome_iff_exists.mp (owns.context target ⟨i, entry⟩)
  obtain ⟨stack, hasStack⟩ := Option.isSome_iff_exists.mp (owns.stack target ⟨i, entry⟩)
  have listed : objects s target = [target, stack, ctx] := by
    simp [objects, hasCtx, hasStack, noRegs]
  have apart : [target, stack, ctx].Nodup := listed ▸ owns.partition.nodup target ⟨i, entry⟩
  have alive : ∀ a ∈ [target, stack, ctx], a ∈ A.live s.heap := by
    intro a held
    exact owns.partition.mem_live (k := target) ⟨i, entry⟩ (listed.symm ▸ held)
  simp only [List.nodup_cons, List.mem_cons, List.not_mem_nil, or_false, not_or, not_false_eq_true,
    List.nodup_nil, and_true] at apart
  obtain ⟨⟨notStack, notCtx⟩, different⟩ := apart
  obtain ⟨heap₁, freed₁, live₁⟩ := Kernel.kfree_of_live (s := s) (alive ctx (by simp))
  obtain ⟨heap₂, freed₂, live₂⟩ := Kernel.kfree_of_live (A := A) (s := { s with heap := heap₁ })
    (p := stack) (by simp [live₁, different, alive stack (by simp)])
  have afterHeap (heap : H) : TableOk ({ s with heap := heap } : Kernel H) :=
    ok.congr rfl rfl fun _ _ => rfl
  have cleared := (afterHeap heap₂).clearTask (p := target) entry
  obtain ⟨heap₃, freed₃, live₃⟩ := Kernel.kfree_of_live (A := A)
    (s := { s with heap := heap₂, task := Function.update s.task i none }) (p := target)
    (by simp [live₁, live₂, notStack, notCtx, alive target (by simp)])
  have result : reap A s target = recount
      { s with heap := heap₃, task := Function.update s.task i none } := by
    unfold reap
    dsimp only
    rw [hasCtx]
    dsimp only
    rw [freed₁]
    dsimp only
    rw [hasStack]
    dsimp only
    rw [freed₂, cleared, freed₃]
  have reaped : Reaped s (reap A s target) target := by
    rw [result]
    exact ⟨⟨i, entry, rfl⟩, rfl, rfl, rfl, rfl⟩
  have remaining : ∀ a, a ∈ A.live (reap A s target).heap ↔ a ∈ A.live s.heap ∧
      a ∉ objects s target := by
    intro a
    have heap : (reap A s target).heap = heap₃ := by rw [result]; rfl
    rw [heap, live₃, live₂, live₁, listed]
    simp only [Finset.mem_erase, List.mem_cons, List.not_mem_nil, or_false, not_or]
    tauto
  have table : TableOk (reap A s target) := by
    rw [result]
    exact ok.recount entry notIdle rfl rfl fun _ => rfl
  have keys : {q | (reap A s target).InTable q} = {q | s.InTable q} \ {target} := by
    ext q
    exact reaped.inTable ok q
  have partition : Partition base {q | (reap A s target).InTable q} (objects (reap A s target))
      (A.live (reap A s target).heap) := by
    rw [keys]
    refine owns.partition.remove (k := target) ⟨i, entry⟩ ?_ remaining
    intro q _ _
    simp only [objects, reaped.procs]
  have noStray : (reap A s target).strayFrees = s.strayFrees := by
    rw [result]
    rfl
  have owned : Owns A base (reap A s target) := by
    apply owns.carry partition (fun q present => ((reaped.inTable ok q).mp present).1) _ _ _ noStray
    · exact fun q _ => by rw [reaped.procs]
    · exact fun q _ => by rw [reaped.procs]
    · exact fun q _ => by rw [reaped.procs]
  exact ⟨table, owned, reaped⟩

end Reap

end OsKernel.Proc
