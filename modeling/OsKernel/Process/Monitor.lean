import OsKernel.Process.CpuTime
import OsKernel.Process.Mirrors
import OsKernel.Process.Slots

/-
This file states what the calls of `process.c` and `scheduler.c` are for, as a monitor of 64 slots.
No address, link, count or object shows in it. The memory only decides which creations succeed.
-/

namespace OsKernel.Proc
open OsKernel.Library

/-- What callers can learn of the task in a slot. -/
structure Entry where
  pid : Int
  exitCode : Int
  clock : Clock
  pending : Option Frame

structure Monitor where
  entry : Fin 64 → Option Entry
  sched : Fifo (Fin 64)
  nextPid : Int

/-- The memory grants all four objects of a creation, not even the control block, or only the first ones. -/
inductive Memory where
  | granted
  | refused
  | late
  deriving DecidableEq, Repr

inductive Call where
  | create (entered : Bool) (priority : Nat) (memory : Memory)
  | yield
  | tick
  | wake (slot : Fin 64)
  | block
  | exit (code : Int)
  | wait (pid : Int) (want : Bool)
  | resume
  deriving DecidableEq, Repr

/-- What a caller gets back before it loses the processor. -/
inductive Answer where
  | done
  | pid (value : Int)
  | waited (value : WaitReturn)
  | suspended
  deriving DecidableEq, Repr

namespace Monitor

/-- Idle alone, with pid 0. -/
def boot : Monitor where
  entry := Function.update (fun _ => none) 0 (some ⟨0, 0, ⟨0, 0, 0⟩, none⟩)
  sched := ⟨0, [], fun _ => .running⟩
  nextPid := 1

/-- The suspended call of the current task. -/
def frame (a : Monitor) : Option Frame := (a.entry a.sched.current).bind Entry.pending

def onCurrent (a : Monitor) (write : Entry → Entry) : Monitor :=
  { a with entry := Function.update a.entry a.sched.current ((a.entry a.sched.current).map write) }

/-- The first slot of the pid. -/
def lookup (a : Monitor) (pid : Int) : Option (Fin 64) :=
  (List.finRange 64).find? fun i => (a.entry i).any fun e => e.pid = pid

/-- The first free slot, which exists when the last slot is free. -/
def free (a : Monitor) : Fin 64 := ((List.finRange 64).find? fun i => (a.entry i).isNone).getD 63

/-- The task of the next pid takes the first free slot, with a full slice, and joins the queue. -/
def enter (a : Monitor) (priority : Nat) : Monitor where
  entry := Function.update a.entry a.free
    (some ⟨a.nextPid, 0, Clock.after (if priority < 5 then priority else 4) 0, none⟩)
  sched := (a.sched.setStatus a.free .ready).enqueue a.free
  nextPid := wrapPid (a.nextPid + 1)

/-- A creation that gets its control block uses up a pid even when it fails later. -/
def create (a : Monitor) (entered : Bool) (priority : Nat) (memory : Memory) : Answer × Monitor :=
  if entered = false ∨ (a.entry 63).isSome ∨ memory = .refused then (.pid (-1), a)
  else if memory = .late then (.pid (-1), { a with nextPid := wrapPid (a.nextPid + 1) })
  else (.pid a.nextPid, a.enter priority)

def yield (a : Monitor) : Monitor := { a with sched := a.sched.schedule }

/-- The current task is charged, and gives way when its slice is used up. -/
def tick (a : Monitor) : Monitor :=
  let a := a.onCurrent fun e => { e with clock := e.clock.charge }
  if (a.entry a.sched.current).any fun e => e.clock.left = 0 then a.yield else a

def wake (a : Monitor) (slot : Fin 64) : Monitor := { a with sched := a.sched.wake slot }

def block (a : Monitor) : Monitor := { a with sched := (a.sched.setStatus a.sched.current .blocked).schedule }

/-- The tasks that an exit wakes if they are blocked, in the order of their slots. -/
def wakeable (a : Monitor) : List (Fin 64) :=
  (List.finRange 64).filter fun i => (a.entry i).any fun e => 0 < e.pid

/-- The current task stops for good with its code, every blocked task is woken, and the next one runs. -/
def retire (a : Monitor) (code : Int) : Monitor :=
  { a.onCurrent fun e => { e with exitCode := code, pending := some .exitLoop } with
    sched := ((a.sched.setStatus a.sched.current .terminated).wakeAll a.wakeable).schedule }

/-- Idle cannot exit. -/
def exit (a : Monitor) (code : Int) : Monitor :=
  if (a.entry a.sched.current).any fun e => e.pid = 0 then a else a.retire code

/-- A terminated task delivers its code and leaves its slot; any other pid is an error. -/
def collect (a : Monitor) (pid : Int) (want : Bool) : WaitReturn × Monitor :=
  match a.lookup pid with
  | none => (⟨-1, none⟩, a)
  | some i =>
      if a.sched.status i ≠ .terminated then (⟨-1, none⟩, a)
      else (⟨0, if want then (a.entry i).map Entry.exitCode else none⟩,
        { a with entry := Function.update a.entry i none })

/-- The pid is in use and its task has not terminated. -/
def alive (a : Monitor) (pid : Int) : Bool := (a.lookup pid).any fun i => a.sched.status i ≠ .terminated

/-- Idle cannot wait, nobody waits for itself, and a caller blocks until its target has terminated. -/
def wait (a : Monitor) (pid : Int) (want : Bool) : Answer × Monitor :=
  if (a.entry a.sched.current).any fun e => e.pid = 0 ∨ e.pid = pid then (.waited ⟨-1, none⟩, a)
  else if a.alive pid then (.suspended, (a.onCurrent fun e => { e with pending := some (.wait pid want) }).block)
  else (.waited (a.collect pid want).1, (a.collect pid want).2)

/-- The suspended wait of the current task ends, whatever its target has done meanwhile. -/
def resume (a : Monitor) : Answer × Monitor :=
  match a.frame with
  | some (.wait pid want) =>
      let a := a.onCurrent fun e => { e with pending := none }
      (.waited (a.collect pid want).1, (a.collect pid want).2)
  | _ => (.done, a)

/-- The clock ticks at any time, a suspended wait can only end, and idle does not block. -/
def Enabled (a : Monitor) : Call → Prop
  | .tick => True
  | .resume => a.frame.map Frame.isWait = some true
  | .wake slot => a.frame = none ∧ (a.entry slot).isSome
  | .block => a.frame = none ∧ a.sched.current ≠ 0
  | _ => a.frame = none

instance (a : Monitor) (call : Call) : Decidable (a.Enabled call) :=
  match call with
  | .tick => inferInstanceAs (Decidable True)
  | .resume => inferInstanceAs (Decidable (_ = _))
  | .wake _ => inferInstanceAs (Decidable (_ ∧ _))
  | .block => inferInstanceAs (Decidable (_ ∧ _))
  | .create _ _ _ => inferInstanceAs (Decidable (_ = _))
  | .yield => inferInstanceAs (Decidable (_ = _))
  | .exit _ => inferInstanceAs (Decidable (_ = _))
  | .wait _ _ => inferInstanceAs (Decidable (_ = _))

/-- One call is answered. -/
def answer (a : Monitor) : Call → Answer × Monitor
  | .create entered priority memory => a.create entered priority memory
  | .yield => (.done, a.yield)
  | .tick => (.done, a.tick)
  | .wake slot => (.done, a.wake slot)
  | .block => (.done, a.block)
  | .exit code => (.done, a.exit code)
  | .wait pid want => a.wait pid want
  | .resume => a.resume

/-- A step is an enabled call with its answer. -/
structure Step (a : Monitor) (event : Call × Answer) (a' : Monitor) : Prop where
  enabled : a.Enabled event.1
  answered : a.answer event.1 = (event.2, a')

end Monitor

end OsKernel.Proc
