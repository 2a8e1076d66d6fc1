import OsKernel.Process.Kernel

/-
This file translates `kernel/process/scheduler.c`.
Loops take fuel, and a loop that runs out of fuel has no result.
-/

namespace OsKernel.Proc

variable {H : Type}

/-- The queue starts empty. -/
def schedulerInit (s : Kernel H) : Kernel H := { s with readyQueue := ⟨none, none⟩ }

/-- The process becomes the last node of the queue.
The source would write through a null tail under a non-null head; no function leaves that state. -/
def schedulerAdd (s : Kernel H) : Option Addr → Kernel H
  | none => s
  | some proc =>
      let s := s.onProc proc fun p => { p with next := none }
      match s.readyQueue.head, s.readyQueue.tail with
      | none, _ => { s with readyQueue := ⟨some proc, some proc⟩ }
      | some head, some tail =>
          { s.onProc tail fun p => { p with next := some proc } with
            readyQueue := ⟨some head, some proc⟩ }
      | some _, none => s

/-- The search follows the links from `cur` and unlinks the node after which `proc` stands. -/
def unlinkFrom : Nat → Kernel H → Addr → Addr → Option (Kernel H)
  | 0, _, _, _ => none
  | fuel + 1, s, proc, cur =>
      match (s.procs cur).next with
      | none => some s
      | some node =>
          if node = proc then
            let s := s.onProc cur fun p => { p with next := (s.procs proc).next }
            if s.readyQueue.tail = some proc then
              some { s with readyQueue := { s.readyQueue with tail := some cur } }
            else some s
          else unlinkFrom fuel s proc node

/-- The process leaves the queue, wherever it stands. -/
def schedulerRemove (fuel : Nat) (s : Kernel H) (proc : Option Addr) : Option (Kernel H) :=
  match proc, s.readyQueue.head with
  | none, _ => some s
  | some _, none => some s
  | some proc, some head =>
      if head = proc then
        let head := (s.procs proc).next
        let tail := if head = none then none else s.readyQueue.tail
        some { s with readyQueue := ⟨head, tail⟩ }
      else unlinkFrom fuel s proc head

/-- The first node runs next, and the current process when the queue is empty. -/
def schedulerNext (s : Kernel H) : Option Addr :=
  match s.readyQueue.head with
  | some head => some head
  | none => s.current

/-- A current process that still runs goes back to the end of the queue. -/
def requeueCurrent (s : Kernel H) : Kernel H :=
  match s.current with
  | none => s
  | some cur =>
      if (s.procs cur).state = .running then
        schedulerAdd (s.onProc cur fun p => { p with state := .ready }) (some cur)
      else s

/-- The next process becomes current and leaves the queue.
Control then passes to the point where that process was last suspended. -/
def schedule (fuel : Nat) (s : Kernel H) : Option (Kernel H) :=
  let next := schedulerNext s
  if s.current = next then some s
  else
    let s := requeueCurrent s
    match next with
    | none => some s
    | some n =>
        let s := s.onProc n fun p => { p with state := .running }
        schedulerRemove fuel { s with current := some n } (some n)

/-- The current process becomes blocked before it gives up the processor. -/
def blockCurrent (s : Kernel H) (cur : Addr) : Kernel H :=
  s.onProc cur fun p => { p with state := .blocked }

def schedulerBlock (fuel : Nat) (s : Kernel H) : Option (Kernel H) :=
  match s.current with
  | none => some s
  | some cur => schedule fuel (blockCurrent s cur)

/-- A blocked process becomes ready and joins the queue. -/
def schedulerWake (s : Kernel H) : Option Addr → Kernel H
  | none => s
  | some proc =>
      if (s.procs proc).state = .blocked then
        schedulerAdd (s.onProc proc fun p => { p with state := .ready }) (some proc)
      else s

end OsKernel.Proc
