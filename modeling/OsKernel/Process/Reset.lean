import OsKernel.Process.Pids

/-
This file proves when a second `process_init` acts as the first one.
-/

namespace OsKernel.Proc
open OsKernel.Library

variable {H : Type} {A : Allocator H} {base : Finset Addr} {s s' : Kernel H} {f : Fifo Addr}

/-- The machine together with the processes of its table that were created since the reset. -/
structure Era (H : Type) where
  machine : Machine H
  born : Set Addr

/-- A creation adds the processes that were not in the table, and whoever leaves the table is forgotten. -/
def Era.next (e : Era H) (op : Op) (m' : Machine H) : Era H :=
  ⟨m', {p | m'.kernel.InTable p ∧ (p ∈ e.born ∨ op.isCreate = true ∧ ¬ e.machine.kernel.InTable p)}⟩

inductive EraStep (A : Allocator H) : Era H → Op → Era H → Prop
  | step {e : Era H} {op : Op} {m' : Machine H} (taken : Disciplined A fifoAllow e.machine op m') :
      EraStep A e op (e.next op m')

/-- Only idle and the processes created since the reset are in the table, in lookups, in the scan of
`schedule_sjf` and in the ready queue, and one of them runs. -/
structure OnlySince (s : Kernel H) (idle : Addr) (born : Set Addr) : Prop where
  first : s.task 0 = some idle
  table : ∀ p, s.InTable p → p = idle ∨ p ∈ born
  lookup : ∀ pid p, findTask s pid = some p → p = idle ∨ p ∈ born
  scan : ∀ i ∈ sjfRange s, ∀ p, s.task i = some p → p ∈ born
  queue : ∃ queue, Represents s queue ∧ ∀ p ∈ queue, p = idle ∨ p ∈ born
  current : ∃ cur, s.current = some cur ∧ (cur = idle ∨ cur ∈ born)

/-- The reset leaves a freshly started kernel but for the pid counter, and every later state knows only
what was created since. -/
structure ActsAsReset (A : Allocator H) (m : Machine H) (s' : Kernel H) : Prop where
  fresh : ∃ b, processInit A (Kernel.boot m.kernel.heap m.kernel.procs m.kernel.contexts) = (true, b) ∧
    s' = { b with nextPid := m.kernel.nextPid }
  later : ∀ ops e, Run (EraStep A) ⟨{ m with kernel := s' }, ∅⟩ ops e →
    ∃ idle, OnlySince e.machine.kernel idle e.born

section Fresh

/-- Only slot 0 of the table and the pid counter of the old state show in the new one. -/
theorem processInit_boot (reset : processInit A s = (true, s')) (empty : ∀ i, i ≠ 0 → s.task i = none)
    (noStray : s.strayFrees = []) : ∃ b, processInit A (Kernel.boot s.heap s.procs s.contexts) = (true, b) ∧
      s' = { b with nextPid := s.nextPid } := by
  have table (idle : Addr) : Function.update s.task 0 (some idle) = Function.update (fun _ => none) 0 (some idle) := by
    funext i
    by_cases first : i = 0
    · simp [first]
    · simp [first, empty i first]
  unfold processInit at reset ⊢
  rcases first : A.kmalloc s.heap sizeofProcess with ⟨_ | idle, heap₁⟩
  · simp [Kernel.kmalloc, first] at reset
  · rcases second : A.kmalloc heap₁ 4096 with ⟨_ | stack, heap₂⟩
    · simp [Kernel.kmalloc, first, second] at reset
    · rcases third : A.kmalloc heap₂ sizeofContext with ⟨_ | ctx, heap₃⟩
      · simp [Kernel.kmalloc, first, second, third] at reset
      · simp only [Kernel.kmalloc, Kernel.onProc_heap, Kernel.boot, first, second, third, Prod.mk.injEq,
          true_and] at reset ⊢
        refine ⟨_, rfl, ?_⟩
        rw [← reset]
        simp [schedulerInit, Kernel.onProc, table, noStray]

/-- The invariant does not read the pid counter. -/
theorem KernelInv.renumber (inv : KernelInv A base s f) (pid : Int) :
    KernelInv A base { s with nextPid := pid } f := by
  refine ⟨⟨inv.table.congr rfl rfl fun _ _ => rfl, ?_, inv.regs⟩, ⟨⟨?_, inv.coherent⟩, inv.attends⟩, inv.active⟩
  · exact ⟨inv.owns.partition, inv.owns.stack, inv.owns.context, inv.owns.noMap, inv.owns.noStray⟩
  · exact ⟨inv.simulates.queue, inv.simulates.current, inv.simulates.status⟩

end Fresh

section Runs

variable {e e' : Era H} {op : Op} {idle : Addr}

/-- Idle keeps its slot. -/
theorem KernelInv.task_zero (inv : KernelInv A base s f) (effect : TableEffect s op s') : s'.task 0 = s.task 0 := by
  cases effect with
  | same tasks _ _ _ => rw [tasks]
  | admitted _ admitted => exact admitted.first inv.table
  | reaped _ dead reaped =>
      obtain ⟨i, entry, tasks⟩ := reaped.slot
      rw [tasks, Function.update_of_ne]
      intro same
      rcases inv.idle_state (same ▸ entry) with ready | running
      · rw [dead] at ready
        cases ready
      · rw [dead] at running
        cases running

/-- Only a creation adds to the table. -/
theorem TableEffect.inTable (effect : TableEffect s op s') (ok : TableOk s) (p : Addr) (member : s'.InTable p) :
    s.InTable p ∨ op.isCreate = true ∧ ¬ s.InTable p := by
  cases effect with
  | same tasks _ _ _ => exact .inl ((Kernel.inTable_congr tasks p).mp member)
  | admitted create admitted =>
      rcases (admitted.inTable p).mp member with rfl | old
      · exact .inr ⟨create, admitted.absent⟩
      · exact .inl old
  | reaped _ _ reaped => exact .inl ((reaped.inTable ok p).mp member).1

/-- What every state after the reset knows. -/
structure EraInv (A : Allocator H) (base : Finset Addr) (e : Era H) (f : Fifo Addr) (idle : Addr) : Prop where
  inv : KernelInv A base e.machine.kernel f
  first : e.machine.kernel.task 0 = some idle
  table : ∀ p, e.machine.kernel.InTable p → p = idle ∨ p ∈ e.born

theorem EraInv.step (era : EraInv A base e f idle) (taken : EraStep A e op e') :
    ∃ f', EraInv A base e' f' idle := by
  obtain ⟨taken⟩ := taken
  obtain ⟨⟨f', kept⟩, effect⟩ := era.inv.step taken
  have table := effect.table era.inv
  refine ⟨f', kept, (era.inv.task_zero table).trans era.first, ?_⟩
  intro p member
  rcases table.inTable era.inv.table p member with old | new
  · exact (era.table p old).imp_right fun born => ⟨member, .inl born⟩
  · exact .inr ⟨member, .inr new⟩

theorem EraInv.onlySince (era : EraInv A base e f idle) : OnlySince e.machine.kernel idle e.born where
  first := era.first
  table := era.table
  lookup := by
    intro pid p found
    exact era.table p (findTask_some found).1
  scan := by
    intro i scanned p entry
    rcases era.table p ⟨i, entry⟩ with same | born
    · have zero : i = 0 := era.inv.table.inj i 0 idle (same ▸ entry) era.first
      simp [sjfRange, zero] at scanned
    · exact born
  queue := by
    refine ⟨f.queue, era.inv.simulates.queue, ?_⟩
    intro p member
    exact era.table p ((era.inv.coherent.ready p).mp member).1
  current := ⟨f.current, era.inv.simulates.current, era.table _ era.inv.current_inTable⟩

variable {m start : Machine H} {heap : H} {ops : List Op}

/-- A reset of a table without other processes starts a new era. -/
theorem processInit_eraInv (reset : processInit A m.kernel = (true, s')) (empty : ∀ i, i ≠ 0 → m.kernel.task i = none)
    (noStray : m.kernel.strayFrees = []) :
    ∃ base f idle, EraInv A base ⟨{ m with kernel := s' }, ∅⟩ f idle := by
  obtain ⟨b, booted, rfl⟩ := processInit_boot reset empty noStray
  obtain ⟨idle, stack, ctx, started⟩ := processInit_started booted
  refine ⟨_, _, idle, started.kernelInv.renumber m.kernel.nextPid, ?_, ?_⟩
  · change b.task 0 = some idle
    simp [started.task]
  · intro p member
    exact .inl ((started.inTable p).mp member)

theorem era_run_inv {e₀ : Era H} (initial : ∃ f, EraInv A base e₀ f idle) (run : Run (EraStep A) e₀ ops e) :
    ∃ f, EraInv A base e f idle := by
  apply run.invariant (fun _ e => ∃ f, EraInv A base e f idle) initial
  rintro _ e op e' _ ⟨f, era⟩ taken
  exact era.step taken

/-- In every FIFO run a second `process_init` acts as a reset exactly when no slot but the first is used. -/
theorem fifo_run_reset_iff (booted : Booted A heap start) (run : Run (Disciplined A fifoAllow) start ops m)
    (reset : processInit A m.kernel = (true, s')) :
    ActsAsReset A m s' ↔ ∀ i, i ≠ 0 → m.kernel.task i = none := by
  obtain ⟨f, inv⟩ := fifo_run_inv booted run
  constructor
  · intro acts i other
    obtain ⟨idle, stack, ctx, restarted⟩ := processInit_restarted reset
    cases entry : m.kernel.task i with
    | none => rfl
    | some p =>
        -- The old process is live, so the new idle is another one.
        obtain ⟨first, only⟩ := acts.later [] _ .nil
        have zero : s'.task 0 = some idle := by simp [restarted.task]
        have same : first = idle := Option.some.inj (only.first.symm.trans zero)
        have stale : s'.InTable p := ⟨i, by rw [restarted.task, Function.update_of_ne other, entry]⟩
        rcases only.table p stale with equal | born
        · have live := inv.owns.live_of_inTable ⟨i, entry⟩
          exact absurd live (restarted.dead p (by simp [equal, same]))
        · exact absurd born (Set.notMem_empty p)
  · intro empty
    refine ⟨processInit_boot reset empty inv.owns.noStray, ?_⟩
    intro later e further
    obtain ⟨base, f', idle, era⟩ := processInit_eraInv reset empty inv.owns.noStray
    obtain ⟨f'', final⟩ := era_run_inv ⟨f', era⟩ further
    exact ⟨idle, final.onlySince⟩

end Runs

/-- The kernel after a second `process_init`. -/
def secondInit (m : Machine Tape) : Kernel Tape := (processInit sampleAllocator m.kernel).2

/-- As long as nothing was created, a second `process_init` acts as a reset. -/
theorem fifo_run_reset_iff_sample :
    ∃ m, Run (Disciplined sampleAllocator fifoAllow) sampleStart [.create none 0 2, .schedule, .doTimer] m ∧
      ActsAsReset sampleAllocator m (secondInit m) := by
  obtain ⟨m, run, checked⟩ := exists_run sampleAllocator fifoAllow 20 sampleStart
    [.create none 0 2, .schedule, .doTimer]
    (fun m => decide ((processInit sampleAllocator m.kernel).1 = true ∧ ∀ i, i ≠ 0 → m.kernel.task i = none))
    (by decide +kernel)
  obtain ⟨initialised, empty⟩ := of_decide_eq_true checked
  have reset : processInit sampleAllocator m.kernel = (true, secondInit m) := Prod.ext initialised rfl
  exact ⟨m, run, (fifo_run_reset_iff sampleStart_booted run reset).mpr empty⟩

/-- One process is created before the reset and one after it. -/
def staleMachine : Machine Tape :=
  { sampleStart with kernel := (processCreate sampleAllocator sampleStart.kernel (some 7) 0 2).2 }

/-- The process from before the reset is found by its pid and scanned by `schedule_sjf` again. -/
theorem staleProcess_found : ∃ p e, Run (Disciplined sampleAllocator fifoAllow) sampleStart
      [.create (some 7) 0 2] staleMachine ∧ staleMachine.kernel.InTable p ∧
    processInit sampleAllocator staleMachine.kernel = (true, secondInit staleMachine) ∧
    Run (EraStep sampleAllocator) ⟨{ staleMachine with kernel := secondInit staleMachine }, ∅⟩
      [.create (some 7) 0 2] e ∧
    findTask e.machine.kernel 1 = some p ∧ 1 ∈ sjfRange e.machine.kernel ∧
    ∀ idle, ¬ OnlySince e.machine.kernel idle e.born := by
  have created : Disciplined sampleAllocator fifoAllow sampleStart (.create (some 7) 0 2) staleMachine :=
    ⟨rfl, by decide +kernel, 0, rfl⟩
  have again : Disciplined sampleAllocator fifoAllow { staleMachine with kernel := secondInit staleMachine }
      (.create (some 7) 0 2) _ := ⟨rfl, by decide +kernel, 0, rfl⟩
  have stale : (secondInit staleMachine).task 1 = some 103 := by decide +kernel
  refine ⟨103, _, .snoc .nil created, ⟨1, by decide +kernel⟩, Prod.ext (by decide +kernel) rfl,
    .snoc .nil (.step again), by decide +kernel, by decide +kernel, ?_⟩
  intro idle only
  obtain ⟨_, earlier | ⟨_, absent⟩⟩ := only.scan 1 (by decide +kernel) 103 (by decide +kernel)
  · exact earlier
  · exact absent ⟨1, stale⟩

end OsKernel.Proc
