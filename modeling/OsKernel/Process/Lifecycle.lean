import OsKernel.Process.Scheduler

/-
This file translates `kernel/process/process.c`.
The two halves of `process_wait` around its inner `schedule()` are two
definitions, since the caller is suspended between them.
-/

namespace OsKernel.Proc

variable {H : Type}

def processSetState (s : Kernel H) (proc : Option Addr) (state : ProcessState) : Kernel H :=
  match proc with
  | none => s
  | some proc => s.onProc proc fun p => { p with state := state }

/-- The idle process becomes current in slot 0, and the flag reports success. -/
def processInit (A : Allocator H) (s : Kernel H) : Bool × Kernel H :=
  match s.kmalloc A sizeofProcess with
  | (none, s) => (false, s)
  | (some idle, s) =>
      let s := s.onProc idle fun _ => { Process.zero with state := .running }
      match s.kmalloc A 4096 with
      | (none, s) => (false, s.kfree A idle)
      | (some stack, s) =>
          let s := s.onProc idle fun p => { p with kernelStack := some stack }
          match s.kmalloc A sizeofContext with
          | (none, s) => (false, (s.kfree A stack).kfree A idle)
          | (some ctx, s) =>
              let s := s.onProc idle fun p => { p with context := some ctx }
              (true, schedulerInit
                { s with
                  contexts := Function.update s.contexts ctx Context.zero
                  current := some idle
                  task := Function.update s.task 0 (some idle)
                  taskCount := 1 })

/-- The search of `process_create` takes the first free slot. -/
def freeSlot (s : Kernel H) : Option (Fin 64) :=
  (List.finRange 64).find? fun i => (s.task i).isNone

/-- The process takes the free slot, and the count grows when the slot lies past it. -/
def installTask (s : Kernel H) (proc : Addr) : Kernel H :=
  match freeSlot s with
  | none => s
  | some i =>
      { s with
        task := Function.update s.task i (some proc)
        taskCount := if s.taskCount ≤ i.val then i.val + 1 else s.taskCount }

/-- The new control block takes the next pid and the time slice of its priority. -/
def newProcess (pid : Int) (priority : Nat) : Process :=
  let priority := if priority < 5 then priority else 4
  { Process.zero with
    pid := pid
    state := .created
    priority := priority
    counter := counterInitValues.getD priority 0 }

/-- A full set of objects makes the process ready, installed and queued. -/
def processAdmit (s : Kernel H) (proc : Addr) : Kernel H :=
  schedulerAdd (installTask (processSetState s (some proc) .ready) proc) (some proc)

/-- The new process or the error code is returned; each error path frees what was allocated. -/
def processCreate (A : Allocator H) (s : Kernel H) (entry : Option Addr) (arg priority : Nat) :
    Int × Kernel H :=
  match entry with
  | none => (-1, s)
  | some entry =>
      if 64 ≤ s.taskCount then (-1, s)
      else
        match s.kmalloc A sizeofProcess with
        | (none, s) => (-1, s)
        | (some proc, s) =>
            let s := { s.onProc proc fun _ => newProcess s.nextPid priority with
              nextPid := wrapPid (s.nextPid + 1) }
            match s.kmalloc A 4096 with
            | (none, s) => (-1, s.kfree A proc)
            | (some stack, s) =>
                let s := s.onProc proc fun p => { p with kernelStack := some stack }
                match s.kmalloc A sizeofContext with
                | (none, s) => (-1, (s.kfree A stack).kfree A proc)
                | (some ctx, s) =>
                    let s := s.onProc proc fun p => { p with context := some ctx }
                    let s := { s with
                      contexts := Function.update s.contexts ctx
                        (contextInit entry arg (stack + 4096)) }
                    match s.kmalloc A sizeofPtRegs with
                    | (none, s) => (-1, ((s.kfree A ctx).kfree A stack).kfree A proc)
                    | (some regs, s) =>
                        let s := processAdmit (s.onProc proc fun p => { p with ptRegs := some regs }) proc
                        ((s.procs proc).pid, s)

/-- The loops of `process.c` visit the slots below `task_count` in order. -/
def taskRange (s : Kernel H) : List (Fin 64) :=
  (List.finRange 64).filter fun i => i.val < s.taskCount

/-- Destroying a memory map frees its areas and then the map. -/
def mmDestroy (A : Allocator H) (s : Kernel H) (mm : MmStruct) : Kernel H :=
  (mm.areas.foldl (fun s area => s.kfree A area) s).kfree A mm.addr

/-- The exiting process stores its code and gives up its memory map and its register frame. -/
def exitRelease (A : Allocator H) (s : Kernel H) (cur : Addr) (code : Int) : Kernel H :=
  let s := s.onProc cur fun p => { p with exitCode := code }
  let s := processSetState s (some cur) .terminated
  let s := match (s.procs cur).mm with
    | some mm => (mmDestroy A s mm).onProc cur fun p => { p with mm := none }
    | none => s
  match (s.procs cur).ptRegs with
  | some regs => (s.kfree A regs).onProc cur fun p => { p with ptRegs := none }
  | none => s

/-- One round of the wake loop looks at one slot. -/
def wakeSlot (s : Kernel H) (i : Fin 64) : Kernel H :=
  match s.task i with
  | some p =>
      if (s.procs p).state = .blocked ∧ 0 < (s.procs p).pid then schedulerWake s (some p) else s
  | none => s

/-- The exit wakes every blocked process with a positive pid, whatever it waits for. -/
def wakeWaiters (s : Kernel H) : Kernel H := (taskRange s).foldl wakeSlot s

/-- The three ways in which a call of `process_exit` can go. -/
inductive ExitOutcome where
  | refused
  | switched
  | returned
  deriving DecidableEq, Repr

/-- The outcome `returned` is the loop behind the message that the call returned. -/
def processExit (A : Allocator H) (fuel : Nat) (s : Kernel H) (code : Int) :
    Option (ExitOutcome × Kernel H) :=
  match s.current with
  | none => some (.refused, s)
  | some cur =>
      if (s.procs cur).pid = 0 then some (.refused, s)
      else do
        let s ← schedulerRemove fuel (exitRelease A s cur code) (some cur)
        let s ← schedule fuel (wakeWaiters s)
        return (if s.current = some cur then .returned else .switched, s)

/-- The lookup loop returns the first process below `task_count` with the pid. -/
def findTask (s : Kernel H) (pid : Int) : Option Addr :=
  (taskRange s).findSome? fun i =>
    match s.task i with
    | some p => if (s.procs p).pid = pid then some p else none
    | none => none

/-- The first slot that holds the process is cleared. -/
def clearTask (s : Kernel H) (target : Addr) : Kernel H :=
  match (taskRange s).find? fun i => s.task i = some target with
  | some i => { s with task := Function.update s.task i none }
  | none => s

/-- The counting loop keeps one more than the last used slot. -/
def newCount (s : Kernel H) : Nat :=
  (taskRange s).foldl (fun n i => if (s.task i).isSome then i.val + 1 else n) 0

/-- The count is never less than one. -/
def recount (s : Kernel H) : Kernel H :=
  { s with taskCount := if 0 < newCount s then newCount s else 1 }

/-- Reaping frees the context, the stack and the control block and clears the slot. -/
def reap (A : Allocator H) (s : Kernel H) (target : Addr) : Kernel H :=
  let s := match (s.procs target).context with
    | some ctx => s.kfree A ctx
    | none => s
  let s := match (s.procs target).kernelStack with
    | some stack => s.kfree A stack
    | none => s
  recount ((clearTask s target).kfree A target)

/-- A finished `process_wait` has a result and may have stored an exit code. -/
structure WaitReturn where
  result : Int
  stored : Option Int
  deriving DecidableEq, Repr

/-- The call either finishes or leaves its caller suspended in the inner `schedule()`. -/
inductive WaitOutcome where
  | returned (value : WaitReturn)
  | suspended
  deriving DecidableEq, Repr

/-- A terminated target delivers its exit code and is reaped. -/
def collect (A : Allocator H) (s : Kernel H) (target : Addr) (want : Bool) : WaitReturn × Kernel H :=
  (⟨0, if want then some (s.procs target).exitCode else none⟩, reap A s target)

/-- The second half looks the target up again and fails unless it has terminated. -/
def processWaitResume (A : Allocator H) (s : Kernel H) (pid : Int) (want : Bool) :
    WaitReturn × Kernel H :=
  match findTask s pid with
  | none => (⟨-1, none⟩, s)
  | some target =>
      if (s.procs target).state ≠ .terminated then (⟨-1, none⟩, s) else collect A s target want

/-- The flag `want` says that the caller passed a pointer for the exit code. -/
def processWait (A : Allocator H) (fuel : Nat) (s : Kernel H) (pid : Int) (want : Bool) :
    Option (WaitOutcome × Kernel H) :=
  match s.current with
  | none => some (.returned ⟨-1, none⟩, s)
  | some cur =>
      if (s.procs cur).pid = 0 then some (.returned ⟨-1, none⟩, s)
      else if (s.procs cur).pid = pid then some (.returned ⟨-1, none⟩, s)
      else
        match findTask s pid with
        | none => some (.returned ⟨-1, none⟩, s)
        | some target =>
            if (s.procs target).state ≠ .terminated then do
              let s ← schedule fuel (blockCurrent s cur)
              if s.current = some cur then
                let (value, s) := processWaitResume A s pid want
                return (.returned value, s)
              else return (.suspended, s)
            else
              let (value, s) := collect A s target want
              some (.returned value, s)

/-- One tick charges the current process and uses up its time slice. -/
def tick (s : Kernel H) (cur : Addr) : Kernel H :=
  s.onProc cur fun p =>
    { p with
      cpuTime := (p.cpuTime + 1) % 2 ^ 64
      counter := if 0 < p.counter then p.counter - 1 else p.counter }

def doTimer (fuel : Nat) (s : Kernel H) : Option (Kernel H) :=
  match s.current with
  | none => some s
  | some cur =>
      let s := tick s cur
      if (s.procs cur).counter = 0 then schedule fuel s else some s

/-- The switch moves `current` and the two states and leaves the ready queue alone. -/
def switchTo (s : Kernel H) (next : Option Addr) : Kernel H :=
  match next, s.current with
  | none, _ => s
  | some _, none => s
  | some next, some prev =>
      if prev = next then s
      else
        let s := { s with current := some next }
        let s := if (s.procs prev).state = .running then
            s.onProc prev fun p => { p with state := .ready }
          else s
        s.onProc next fun p => { p with state := .running }

/-- The scan keeps the slot with the smallest counter so far; slot 0 stands for no choice. -/
def sjfVisit (s : Kernel H) (best : Fin 64 × Nat) (i : Fin 64) : Fin 64 × Nat :=
  match s.task i with
  | some p =>
      if (s.procs p).state = .ready ∧ 0 < (s.procs p).counter ∧ (s.procs p).counter < best.2 then
        (i, (s.procs p).counter)
      else best
  | none => best

/-- The slots that `schedule_sjf` scans start at 1. -/
def sjfRange (s : Kernel H) : List (Fin 64) := (taskRange s).filter fun i => i ≠ 0

def sjfPick (s : Kernel H) : Fin 64 :=
  ((sjfRange s).foldl (sjfVisit s) (0, 0xFFFFFFFF)).1

/-- The refresh gives one ready slot a new time slice and counts it. -/
def refreshSlot (acc : Nat × Kernel H) (i : Fin 64) : Nat × Kernel H :=
  match acc.2.task i with
  | some p =>
      if (acc.2.procs p).state = .ready then
        (acc.1 + 1, acc.2.onProc p fun q =>
          { q with counter := counterInitValues.getD (q.priority % 5) 0 })
      else acc
  | none => acc

def refreshSlices (s : Kernel H) : Nat × Kernel H := (sjfRange s).foldl refreshSlot (0, s)

/-- The fuel bounds the recursion after a refresh. -/
def scheduleSjf : Nat → Kernel H → Option (Kernel H)
  | 0, _ => none
  | fuel + 1, s =>
      match s.current with
      | none => some s
      | some cur =>
          if sjfPick s = 0 then
            if 0 < (refreshSlices s).1 then scheduleSjf fuel (refreshSlices s).2
            else if (s.procs cur).pid ≠ 0 then some (switchTo s (s.task 0))
            else some s
          else some (switchTo s (s.task (sjfPick s)))

end OsKernel.Proc
