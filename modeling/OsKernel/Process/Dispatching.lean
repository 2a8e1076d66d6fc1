import OsKernel.Process.ContextSwitch
import OsKernel.Process.CpuTime
import OsKernel.Process.FifoOrder
import OsKernel.Process.Transitions

/-
This file lets the processor take part in a FIFO run: every operation that
changes the current process ends with the switch of `schedule()`.
A process gets its own registers back, but it is always entered at its first
instruction, since no saved context ever holds another place.
-/

namespace OsKernel.Proc
open OsKernel.Library

variable {H : Type} {A : Allocator H} {base : Finset Addr} {s s' : Kernel H} {f : Fifo Addr}
  {m m' : Machine H} {op : Op} {p q : Addr} {cpu : Cpu}

/-- The end of `schedule()`, where `next` is the current process already: the registers go to the context of `prev`,
if there is one, and those of `next` are loaded. The context of `next` is not checked by the source. -/
def passControl (cpu : Cpu) (s : Kernel H) (prev : Option Addr) (next : Addr) : Cpu × (Addr → Context) :=
  let target := (s.procs next).context.getD 0
  match prev.bind fun p => (s.procs p).context with
  | some source => contextSwitch source target cpu s.contexts
  | none => (contextRestore (s.contexts target) cpu, s.contexts)

/-- The machine with its processor. Besides, the record keeps the first context of each process and the registers
with which the process last gave the processor up. -/
structure Hosted (H : Type) where
  machine : Machine H
  cpu : Cpu
  origin : Addr → Context
  parked : Addr → Option Cpu

/-- Idle is the only process before the first operation, and its context is cleared. -/
def Hosted.start (m : Machine H) (cpu : Cpu) : Hosted H := ⟨m, cpu, fun _ => Context.zero, fun _ => none⟩

/-- The context that a creation gives to its process. -/
def firstContext (s : Kernel H) (op : Op) (p : Addr) : Context :=
  match op with
  | .create (some entry) arg _ => contextInit entry arg ((s.procs p).kernelStack.getD 0 + 4096)
  | _ => Context.zero

/-- The process that runs calls with the registers `cpu`, and the operation leads to `m'` before the switch. -/
def Hosted.enter (r : Hosted H) (op : Op) (cpu : Cpu) (m' : Machine H) : Hosted H where
  machine := m'
  cpu := cpu
  origin := fun p => if r.machine.kernel.InTable p then r.origin p else firstContext m'.kernel op p
  parked := fun p => if r.machine.kernel.InTable p then r.parked p else none

/-- The switch from one process to another. It enters `next` at the `rip` of its context, so a call of `next` that an
earlier switch suspended is gone. -/
def Hosted.pass (r : Hosted H) (prev next : Addr) : Hosted H where
  machine := { r.machine with
    kernel := { r.machine.kernel with contexts := (passControl r.cpu r.machine.kernel (some prev) next).2 }
    frames := setFrame r.machine.frames (some next) none }
  cpu := (passControl r.cpu r.machine.kernel (some prev) next).1
  origin := r.origin
  parked := Function.update r.parked prev (some r.cpu)

/-- An operation that changes the current process ends with the switch. -/
def Hosted.advance (r : Hosted H) (op : Op) (cpu : Cpu) (m' : Machine H) : Hosted H :=
  match r.machine.kernel.current, m'.kernel.current with
  | some prev, some next =>
      if prev = next then r.enter op cpu m' else (r.enter op cpu m').pass prev next
  | _, _ => r.enter op cpu m'

/-- A step of a FIFO run on the processor. -/
def HostedStep (A : Allocator H) (r : Hosted H) (label : Op × Cpu) (r' : Hosted H) : Prop :=
  ∃ m', Disciplined A fifoAllow r.machine label.1 m' ∧ r' = r.advance label.1 label.2 m'

/-- The context that a process should have: its first one, or the registers of the last switch with the first `rip`. -/
def Hosted.expected (r : Hosted H) (p : Addr) : Context :=
  (r.parked p).elim (r.origin p) fun cpu => contextSave cpu (r.origin p)

/-- Every saved context is the expected one. -/
def Hosted.Faithful (r : Hosted H) : Prop :=
  ∀ p, r.machine.kernel.InTable p → ∃ ctx, (r.machine.kernel.procs p).context = some ctx ∧
    r.machine.kernel.contexts ctx = r.expected p

section Contexts

/-- A second save leaves nothing of the first one. -/
theorem contextSave_idem (cpu later : Cpu) (c : Context) :
    contextSave later (contextSave cpu c) = contextSave later c := by
  rw [contextSave_eq, contextSave_eq, contextSave_eq]

/-- The scheduler does not look at the saved contexts. -/
theorem KernelInv.recontext (inv : KernelInv A base s f) (contexts : Addr → Context) :
    KernelInv A base { s with contexts := contexts } f := by
  refine ⟨⟨inv.table.congr rfl rfl fun _ _ => rfl, ?_, inv.regs⟩, ⟨⟨?_, inv.coherent⟩, inv.attends⟩, inv.active⟩
  · exact ⟨inv.owns.partition, inv.owns.stack, inv.owns.context, inv.owns.noMap, inv.owns.noStray⟩
  · exact ⟨inv.simulates.queue, inv.simulates.current, inv.simulates.status⟩

/-- Two tasks never share a context. -/
theorem KernelInv.context_inj (inv : KernelInv A base s f) {ctx : Addr} (first : s.InTable p) (second : s.InTable q)
    (own : (s.procs p).context = some ctx) (other : (s.procs q).context = some ctx) : p = q := by
  by_contra different
  have held : ctx ∈ objects s p := by simp [objects, own]
  exact inv.owns.partition.disjoint p first q second different ctx held (by simp [objects, other])

/-- An admission adds at most its process to the table. -/
theorem inTable_of_processAdmit (member : (processAdmit s p).InTable q) (absent : ¬ s.InTable q) : q = p := by
  have added := (schedulerAdd_relinked (installTask (processSetState s (some p) .ready) p) p).sameTasks
  obtain ⟨i, entry⟩ := (added.inTable q).mp member
  unfold installTask at entry
  split at entry
  next => exact absurd ⟨i, entry⟩ absent
  next j _ =>
      change Function.update s.task j (some p) i = some q at entry
      by_cases same : i = j
      · rw [same, Function.update_self] at entry
        exact (Option.some.inj entry).symm
      · rw [Function.update_of_ne same] at entry
        exact absurd ⟨i, entry⟩ absent

theorem processAdmit_contexts (s : Kernel H) (p : Addr) : (processAdmit s p).contexts = s.contexts := by
  have added := (schedulerAdd_relinked (installTask (processSetState s (some p) .ready) p) p).rescheduled
  obtain ⟨task, count, installed⟩ := installTask_eq (processSetState s (some p) .ready) p
  rw [processAdmit, added.undisturbed.contexts, installed]
  rfl

theorem processAdmit_objects (s : Kernel H) (p q : Addr) : ((processAdmit s p).procs q).context = (s.procs q).context ∧
    ((processAdmit s p).procs q).kernelStack = (s.procs q).kernelStack := by
  have context := congrArg Process.context (processAdmit_identity s p q)
  have stack := congrArg Process.kernelStack (processAdmit_identity s p q)
  exact ⟨context, stack⟩

/-- A creation writes one context, that of its new process. -/
theorem processCreate_contexts (A : Allocator H) (s : Kernel H) (entry : Option Addr) (arg priority : Nat)
    (absent : ¬ s.InTable q) (member : (processCreate A s entry arg priority).2.InTable q) :
    ∃ first ctx stack, entry = some first ∧
      ((processCreate A s entry arg priority).2.procs q).context = some ctx ∧
      ((processCreate A s entry arg priority).2.procs q).kernelStack = some stack ∧
      (processCreate A s entry arg priority).2.contexts =
        Function.update s.contexts ctx (contextInit first arg (stack + 4096)) := by
  generalize answered : processCreate A s entry arg priority = answer at member ⊢
  have refused {code : Int} {kernel : Kernel H} (result : (code, kernel) = answer)
      (tasks : kernel.task = s.task) : False := by
    rw [← result] at member
    exact absent ((Kernel.inTable_congr tasks q).mp member)
  unfold processCreate at answered
  cases entry with
  | none => exact (refused answered rfl).elim
  | some first =>
      dsimp only at answered
      split at answered
      next => exact (refused answered rfl).elim
      next =>
          split at answered
          next s₁ missing =>
              obtain ⟨_, rfl, _⟩ := Kernel.kmalloc_none missing
              exact (refused answered rfl).elim
          next p s₁ issued =>
              obtain ⟨_, rfl, _⟩ := Kernel.kmalloc_some issued
              split at answered
              next s₂ missing =>
                  obtain ⟨_, rfl, _⟩ := Kernel.kmalloc_none missing
                  exact (refused answered rfl).elim
              next stack s₂ issued =>
                  obtain ⟨_, rfl, _⟩ := Kernel.kmalloc_some issued
                  split at answered
                  next s₃ missing =>
                      obtain ⟨_, rfl, _⟩ := Kernel.kmalloc_none missing
                      exact (refused answered rfl).elim
                  next ctx s₃ issued =>
                      obtain ⟨_, rfl, _⟩ := Kernel.kmalloc_some issued
                      split at answered
                      next s₄ missing =>
                          obtain ⟨_, rfl, _⟩ := Kernel.kmalloc_none missing
                          exact (refused answered rfl).elim
                      next regs s₄ issued =>
                          obtain ⟨_, rfl, _⟩ := Kernel.kmalloc_some issued
                          obtain rfl := answered
                          obtain rfl := inTable_of_processAdmit member absent
                          refine ⟨first, ctx, stack, rfl, ?_, ?_, ?_⟩
                          · rw [(processAdmit_objects _ _ _).1]
                            simp
                          · rw [(processAdmit_objects _ _ _).2]
                            simp
                          · rw [processAdmit_contexts]
                            rfl

end Contexts

section Steps

variable {r r' : Hosted H}

theorem Hosted.enter_old (r : Hosted H) (op : Op) (cpu : Cpu) (m' : Machine H) (old : r.machine.kernel.InTable p) :
    (r.enter op cpu m').expected p = r.expected p ∧ (r.enter op cpu m').origin p = r.origin p ∧
      (r.enter op cpu m').parked p = r.parked p := by
  have origin : (r.enter op cpu m').origin p = r.origin p := if_pos old
  have parked : (r.enter op cpu m').parked p = r.parked p := if_pos old
  rw [expected, origin, parked, expected]
  exact ⟨rfl, rfl, rfl⟩

theorem Hosted.enter_new (r : Hosted H) (op : Op) (cpu : Cpu) (m' : Machine H) (new : ¬ r.machine.kernel.InTable p) :
    (r.enter op cpu m').expected p = firstContext m'.kernel op p := by
  have origin : (r.enter op cpu m').origin p = firstContext m'.kernel op p := if_neg new
  have parked : (r.enter op cpu m').parked p = none := if_neg new
  rw [expected, origin, parked]
  rfl

/-- An operation leaves the contexts of the tasks alone. -/
theorem KernelInv.context_old (inv : KernelInv A base m.kernel f) (taken : Disciplined A fifoAllow m op m')
    (old : m.kernel.InTable p) {ctx : Addr} (own : (m.kernel.procs p).context = some ctx) :
    (m'.kernel.procs p).context = some ctx ∧ m'.kernel.contexts ctx = m.kernel.contexts ctx := by
  have alive : ctx ∈ A.live m.kernel.heap := inv.owns.partition.mem_live (k := p) old (by simp [objects, own])
  by_cases create : op.isCreate = true
  · cases op with
    | create entry arg priority =>
        obtain ⟨⟨f', inv'⟩, _⟩ := inv.step taken
        obtain ⟨_, _, _, ran⟩ := taken
        obtain rfl := Option.some.inj ran
        rcases processCreate_outcome A m.kernel entry arg priority with ⟨_, _, undone⟩ | ⟨_, n, t, ready, result⟩
        · dsimp only
          rw [undone.procs p (inv.owns.live_of_inTable old), undone.contexts ctx alive]
          exact ⟨own, rfl⟩
        · obtain ⟨_, admitted⟩ := ready.admitted inv.table inv.owns
          have new : (processCreate A m.kernel entry arg priority).2.InTable n := by
            rw [result]
            exact (admitted.inTable n).mpr (.inl rfl)
          obtain ⟨_, fresh, _, _, other, _, written⟩ :=
            processCreate_contexts A m.kernel entry arg priority admitted.absent new
          have kept : ((processCreate A m.kernel entry arg priority).2.procs p).context = some ctx := by
            have field := congrArg Process.context (admitted.others p (admitted.ne old))
            rw [result]
            exact field.trans own
          refine ⟨kept, ?_⟩
          dsimp only at inv' ⊢
          rw [written, Function.update_of_ne]
          rintro rfl
          have member : (processCreate A m.kernel entry arg priority).2.InTable p := by
            rw [result]
            exact (admitted.inTable p).mpr (.inr old)
          exact admitted.ne old (inv'.context_inj member new kept other)
    | _ => cases create
  · by_cases tick : op = .doTimer
    · subst tick
      obtain ⟨_, _, fuel, ran⟩ := taken
      obtain ⟨s', ticked, rfl⟩ := Option.map_eq_some_iff.mp ran
      have same := (doTimer_counter ticked).1
      have context := congrArg Process.context (same.identity p)
      have contexts := congrArg Kernel.contexts same
      exact ⟨Eq.trans context own, congrFun contexts ctx⟩
    · have same := inv.undisturbed taken tick (Bool.eq_false_iff.mpr create)
      exact ⟨(same.context p).trans own, congrFun same.contexts ctx⟩

theorem Hosted.enter_faithful (faithful : r.Faithful) (inv : KernelInv A base r.machine.kernel f)
    (taken : Disciplined A fifoAllow r.machine op m') (cpu : Cpu) : (r.enter op cpu m').Faithful := by
  intro p member
  change m'.kernel.InTable p at member
  by_cases old : r.machine.kernel.InTable p
  · obtain ⟨ctx, own, content⟩ := faithful p old
    obtain ⟨same, kept⟩ := inv.context_old taken old own
    rw [(r.enter_old op cpu m' old).1]
    exact ⟨ctx, same, kept.trans content⟩
  · rw [r.enter_new op cpu m' old]
    have effect := ((inv.step taken).2).table inv
    obtain ⟨_, _, _, ran⟩ := taken
    cases op with
    | create entry arg priority =>
        obtain rfl := Option.some.inj ran
        obtain ⟨first, ctx, stack, rfl, own, base, written⟩ :=
          processCreate_contexts A r.machine.kernel entry arg priority old member
        refine ⟨ctx, own, ?_⟩
        change (processCreate A r.machine.kernel (some first) arg priority).2.contexts ctx = _
        rw [written, Function.update_self, firstContext, base]
        rfl
    | _ =>
        cases effect with
        | same tasks _ _ _ => exact absurd ((Kernel.inTable_congr tasks p).mp member) old
        | admitted create _ => cases create
        | reaped _ _ reaped => exact absurd ((reaped.inTable inv.table p).mp member).1 old

/-- The switch replaces the context of the process that gives the processor up. -/
theorem Hosted.pass_faithful {prev next : Addr} (faithful : r.Faithful) (inv : KernelInv A base r.machine.kernel f)
    (member : r.machine.kernel.InTable prev) : (r.pass prev next).Faithful := by
  obtain ⟨source, own, content⟩ := faithful prev member
  have written : (r.pass prev next).machine.kernel.contexts =
      Function.update r.machine.kernel.contexts source (contextSave r.cpu (r.machine.kernel.contexts source)) := by
    change (passControl r.cpu r.machine.kernel (some prev) next).2 = _
    rw [passControl, Option.bind_some, own]
    rfl
  intro p present
  change r.machine.kernel.InTable p at present
  obtain ⟨ctx, mine, holds⟩ := faithful p present
  refine ⟨ctx, mine, ?_⟩
  rw [written]
  by_cases same : p = prev
  · subst same
    obtain rfl := Option.some.inj (mine.symm.trans own)
    have parked : (r.pass p next).parked p = some r.cpu := Function.update_self _ _ _
    rw [Function.update_self, holds, expected, expected, parked]
    change _ = contextSave r.cpu (r.origin p)
    cases r.parked p with
    | none => rfl
    | some earlier => exact contextSave_idem earlier r.cpu (r.origin p)
  · have other : ctx ≠ source := by
      rintro rfl
      exact same (inv.context_inj present member mine own)
    have parked : (r.pass prev next).parked p = r.parked p := Function.update_of_ne same _ _
    rw [Function.update_of_ne other, holds, expected, expected, parked]
    rfl

/-- Both processes of a switch were in the table before the operation. -/
theorem KernelInv.switch_inTable (inv : KernelInv A base m.kernel f) (taken : Disciplined A fifoAllow m op m')
    {prev next : Addr} (before : m.kernel.current = some prev) (after : m'.kernel.current = some next)
    (different : prev ≠ next) : m'.kernel.InTable prev ∧ m.kernel.InTable next := by
  obtain rfl := inv.simulates.eq_current before
  constructor
  · refine (((inv.step taken).2).table inv).stays inv.table inv.current_inTable ?_
    rw [inv.running_of_current before]
    decide
  · obtain ⟨g, _, simulates, serves, _⟩ := inv.turned taken
    obtain rfl := simulates.eq_current after
    cases serves with
    | stays current _ => exact absurd current.symm different
    | passes front current _ _ =>
        refine ((inv.coherent.ready _).mp ?_).1
        rw [current, front]
        exact List.mem_cons_self

/-- A step keeps the kernel invariant and every context as expected. -/
theorem HostedStep.keeps {label : Op × Cpu} (taken : HostedStep A r label r')
    (inv : KernelInv A base r.machine.kernel f) (faithful : r.Faithful) :
    (∃ f', KernelInv A base r'.machine.kernel f') ∧ r'.Faithful := by
  obtain ⟨m', step, rfl⟩ := taken
  obtain ⟨⟨f', inv'⟩, _⟩ := inv.step step
  have entered := Hosted.enter_faithful faithful inv step label.2
  unfold Hosted.advance
  rw [inv.simulates.current, inv'.simulates.current]
  dsimp only
  split
  next => exact ⟨⟨f', inv'⟩, entered⟩
  next different =>
      have members := inv.switch_inTable step inv.simulates.current inv'.simulates.current different
      exact ⟨⟨f', inv'.recontext _⟩, Hosted.pass_faithful entered inv' members.1⟩

end Steps

section Runs

variable {heap : H} {start : Machine H} {r r' : Hosted H} {first : Cpu} {labels : List (Op × Cpu)} {label : Op × Cpu}

end Runs

end OsKernel.Proc
