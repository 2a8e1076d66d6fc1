import OsKernel.Library.Runs
import OsKernel.Process.Lifecycle

/-
This file runs the kernel functions against each other.
A context switch leaves the old process suspended inside the function that
called `schedule()`; a frame records what that process still has to do.
-/

namespace OsKernel.Proc
open OsKernel.Library

/-- A suspended call still has to finish `process_wait` or to spin behind `process_exit`. -/
inductive Frame where
  | wait (pid : Int) (want : Bool)
  | exitLoop
  deriving DecidableEq, Repr

def Frame.isWait : Frame → Bool
  | .wait _ _ => true
  | .exitLoop => false

/-- The log keeps every exit and every finished `process_wait`. -/
inductive Event where
  | exited (pid code : Int)
  | waited (waiter : Option Addr) (pid : Int) (want : Bool) (value : WaitReturn)
  deriving DecidableEq, Repr

/-- The machine adds the suspended calls and the log to the kernel state. -/
structure Machine (H : Type) where
  kernel : Kernel H
  frames : Addr → Option Frame
  log : List Event

/-- The operations that a running process, or the timer interrupt, can perform. -/
inductive Op where
  | create (entry : Option Addr) (arg priority : Nat)
  | schedule
  | scheduleSjf
  | doTimer
  | wake (proc : Addr)
  | block
  | setState (proc : Addr) (state : ProcessState)
  | exit (code : Int)
  | wait (pid : Int) (want : Bool)
  | resume
  deriving DecidableEq, Repr

def Op.isCreate : Op → Bool
  | .create _ _ _ => true
  | _ => false

variable {H : Type}

/-- Nothing is suspended before the first operation. -/
def Machine.start (kernel : Kernel H) : Machine H := ⟨kernel, fun _ => none, []⟩

/-- The pending frame of the current process. -/
def Machine.frame (m : Machine H) : Option Frame := m.kernel.current.bind m.frames

/-- The current process is free when it has no suspended call to finish. -/
def Machine.Free (m : Machine H) : Prop := m.kernel.current.isSome ∧ m.frame = none

instance (m : Machine H) : Decidable m.Free := inferInstanceAs (Decidable (_ ∧ _))

/-- The timer interrupts at any time, a suspended wait can only finish, and every other
operation is a call by a free current process. -/
def Machine.Enabled (m : Machine H) : Op → Prop
  | .doTimer => True
  | .resume => m.frame.map Frame.isWait = some true
  | .wake proc => m.Free ∧ m.kernel.InTable proc
  | .setState proc _ => m.Free ∧ m.kernel.InTable proc
  | _ => m.Free

instance (m : Machine H) (op : Op) : Decidable (m.Enabled op) :=
  match op with
  | .doTimer => inferInstanceAs (Decidable True)
  | .resume => inferInstanceAs (Decidable (_ = _))
  | .wake _ => inferInstanceAs (Decidable (_ ∧ _))
  | .setState _ _ => inferInstanceAs (Decidable (_ ∧ _))
  | .create _ _ _ => inferInstanceAs (Decidable m.Free)
  | .schedule => inferInstanceAs (Decidable m.Free)
  | .scheduleSjf => inferInstanceAs (Decidable m.Free)
  | .block => inferInstanceAs (Decidable m.Free)
  | .exit _ => inferInstanceAs (Decidable m.Free)
  | .wait _ _ => inferInstanceAs (Decidable m.Free)

/-- This update replaces the frame of a process. -/
def setFrame (frames : Addr → Option Frame) (proc : Option Addr) (frame : Option Frame) :
    Addr → Option Frame :=
  match proc with
  | none => frames
  | some p => Function.update frames p frame

/-- A frame lives on the kernel stack of a task and goes with it. -/
def keepFrames (kernel : Kernel H) (frames : Addr → Option Frame) : Addr → Option Frame :=
  fun p => if kernel.InTable p then frames p else none

/-- A finished `process_wait` is logged and its frame is gone. -/
def Machine.finishWait (m : Machine H) (pid : Int) (want : Bool) (done : WaitReturn × Kernel H) :
    Machine H where
  kernel := done.2
  frames := keepFrames done.2 (setFrame m.frames m.kernel.current none)
  log := m.log ++ [.waited m.kernel.current pid want done.1]

@[simp] theorem Machine.finishWait_kernel (m : Machine H) (pid : Int) (want : Bool)
    (done : WaitReturn × Kernel H) : (m.finishWait pid want done).kernel = done.2 := rfl

@[simp] theorem Machine.finishWait_log (m : Machine H) (pid : Int) (want : Bool)
    (done : WaitReturn × Kernel H) :
    (m.finishWait pid want done).log = m.log ++ [.waited m.kernel.current pid want done.1] := rfl

/-- The pid of the current process, which every log entry of an exit carries. -/
def Machine.currentPid (m : Machine H) : Int :=
  match m.kernel.current with
  | some cur => (m.kernel.procs cur).pid
  | none => 0

/-- The exiting process stays suspended in front of its endless loop. -/
def Machine.finishExit (m : Machine H) (code : Int) : ExitOutcome × Kernel H → Machine H
  | (.refused, kernel) => { m with kernel := kernel }
  | (_, kernel) =>
      ⟨kernel, setFrame m.frames m.kernel.current (some .exitLoop),
        m.log ++ [.exited m.currentPid code]⟩

@[simp] theorem Machine.finishExit_kernel (m : Machine H) (code : Int)
    (done : ExitOutcome × Kernel H) : (m.finishExit code done).kernel = done.2 := by
  rcases done with ⟨_ | _ | _, kernel⟩ <;> rfl

def Machine.startWait (m : Machine H) (pid : Int) (want : Bool) :
    WaitOutcome × Kernel H → Machine H
  | (.suspended, kernel) =>
      { m with
        kernel := kernel
        frames := setFrame m.frames m.kernel.current (some (.wait pid want)) }
  | (.returned value, kernel) => m.finishWait pid want (value, kernel)

/-- One operation runs to its end or to the next context switch. -/
def exec (A : Allocator H) (fuel : Nat) (m : Machine H) : Op → Option (Machine H)
  | .create entry arg priority =>
      some { m with kernel := (processCreate A m.kernel entry arg priority).2 }
  | .schedule => (schedule fuel m.kernel).map fun kernel => { m with kernel := kernel }
  | .scheduleSjf => (scheduleSjf fuel m.kernel).map fun kernel => { m with kernel := kernel }
  | .doTimer => (doTimer fuel m.kernel).map fun kernel => { m with kernel := kernel }
  | .wake proc => some { m with kernel := schedulerWake m.kernel (some proc) }
  | .block => (schedulerBlock fuel m.kernel).map fun kernel => { m with kernel := kernel }
  | .setState proc state => some { m with kernel := processSetState m.kernel (some proc) state }
  | .exit code => (processExit A fuel m.kernel code).map (m.finishExit code)
  | .wait pid want => (processWait A fuel m.kernel pid want).map (m.startWait pid want)
  | .resume =>
      match m.frame with
      | some (.wait pid want) => some (m.finishWait pid want (processWaitResume A m.kernel pid want))
      | _ => none

/-- A step is an enabled operation whose loops all end. -/
structure Step (A : Allocator H) (m : Machine H) (op : Op) (m' : Machine H) : Prop where
  enabled : m.Enabled op
  returns : ∃ fuel, exec A fuel m op = some m'

/-- A discipline limits the operations of a run, state by state. -/
def Disciplined (A : Allocator H) (allow : Machine H → Op → Bool) (m : Machine H) (op : Op)
    (m' : Machine H) : Prop := allow m op = true ∧ Step A m op m'

/-- The machine has just left a successful `process_init` over the heap `heap`. -/
def Booted (A : Allocator H) (heap : H) (m : Machine H) : Prop :=
  ∃ procs contexts kernel, processInit A (Kernel.boot heap procs contexts) = (true, kernel) ∧
    m = .start kernel

/-- The next state with bounded fuel lets a concrete run be evaluated. -/
def next (A : Allocator H) (allow : Machine H → Op → Bool) (fuel : Nat) (m : Machine H) (op : Op) :
    Option (Machine H) :=
  if allow m op = true ∧ m.Enabled op then exec A fuel m op else none

theorem next_sound {A : Allocator H} {allow : Machine H → Op → Bool} {fuel : Nat} (m : Machine H) (op : Op) (m' : Machine H)
    (taken : next A allow fuel m op = some m') : Disciplined A allow m op m' := by
  unfold next at taken
  split at taken
  · rename_i admitted
    exact ⟨admitted.1, admitted.2, fuel, taken⟩
  · simp at taken

/-- A replay that does not get stuck is a run. -/
theorem exists_run (A : Allocator H) (allow : Machine H → Op → Bool) (fuel : Nat)
    (start : Machine H) (ops : List Op) (check : Machine H → Bool)
    (passed : (replay (next A allow fuel) start ops).any check = true) :
    ∃ m, Run (Disciplined A allow) start ops m ∧ check m = true := by
  obtain ⟨m, replayed, checked⟩ := (Option.any_eq_true _ _).mp passed
  exact ⟨m, run_of_replay next_sound replayed, checked⟩

section Sample

/-- An allocator that never refuses serves the evaluated runs. -/
def sampleAllocator : Allocator Tape := tapeAllocator some

/-- The machine after `process_init` over an empty heap. -/
def sampleStart : Machine Tape :=
  .start (processInit sampleAllocator
    (Kernel.boot ⟨∅, 100⟩ (fun _ => Process.zero) fun _ => Context.zero)).2

theorem sampleStart_booted : Booted sampleAllocator ⟨∅, 100⟩ sampleStart :=
  ⟨_, _, _, Prod.ext (by decide) rfl, rfl⟩

end Sample

section Fuel

/-- Two results of a function that more fuel does not change are the same. -/
theorem unique_of_mono {β : Type} {g : Nat → Option β} {first second : Nat} {a b : β}
    (mono : ∀ fuel more c, g fuel = some c → fuel ≤ more → g more = some c)
    (left : g first = some a) (right : g second = some b) : a = b := by
  have leftMore := mono first (max first second) a left (Nat.le_max_left first second)
  have rightMore := mono second (max first second) b right (Nat.le_max_right first second)
  exact Option.some.inj (leftMore.symm.trans rightMore)

/-- More fuel never changes the result of the unlinking search. -/
theorem unlinkFrom_mono {fuel more : Nat} {s s' : Kernel H} {proc cur : Addr}
    (found : unlinkFrom fuel s proc cur = some s') (enough : fuel ≤ more) :
    unlinkFrom more s proc cur = some s' := by
  induction fuel generalizing more cur with
  | zero => simp [unlinkFrom] at found
  | succ fuel ih =>
      obtain ⟨rest, rfl⟩ : ∃ rest, more = rest + 1 := ⟨more - 1, by omega⟩
      unfold unlinkFrom at found ⊢
      split at found
      · exact found
      · rename_i node linked
        split at found
        · rename_i same
          simpa [same] using found
        · rename_i different
          simpa [different] using ih found (by omega)

theorem schedulerRemove_mono {fuel more : Nat} {s s' : Kernel H} {proc : Option Addr}
    (removed : schedulerRemove fuel s proc = some s') (enough : fuel ≤ more) :
    schedulerRemove more s proc = some s' := by
  unfold schedulerRemove at removed ⊢
  split at removed
  · exact removed
  · exact removed
  · split at removed
    · rename_i same
      simpa [same] using removed
    · rename_i different
      simpa [different] using unlinkFrom_mono removed enough

theorem schedulerRemove_det {first second : Nat} {s s₁ s₂ : Kernel H} {proc : Option Addr}
    (left : schedulerRemove first s proc = some s₁) (right : schedulerRemove second s proc = some s₂) : s₁ = s₂ :=
  unique_of_mono (fun _ _ _ => schedulerRemove_mono) left right

theorem schedule_mono {fuel more : Nat} {s s' : Kernel H}
    (scheduled : schedule fuel s = some s') (enough : fuel ≤ more) : schedule more s = some s' := by
  unfold schedule at scheduled ⊢
  dsimp only at scheduled ⊢
  split at scheduled
  · rename_i same
    rw [if_pos same]
    exact scheduled
  · rename_i different
    rw [if_neg different]
    split at scheduled
    · exact scheduled
    · exact schedulerRemove_mono scheduled enough

theorem schedule_det {first second : Nat} {s s₁ s₂ : Kernel H}
    (left : schedule first s = some s₁) (right : schedule second s = some s₂) : s₁ = s₂ :=
  unique_of_mono (fun _ _ _ => schedule_mono) left right

theorem doTimer_mono {fuel more : Nat} {s s' : Kernel H}
    (ticked : doTimer fuel s = some s') (enough : fuel ≤ more) : doTimer more s = some s' := by
  unfold doTimer at ticked ⊢
  cases current : s.current with
  | none => simpa only [current] using ticked
  | some cur =>
      simp only [current] at ticked ⊢
      by_cases spent : ((tick s cur).procs cur).counter = 0
      · rw [if_pos spent] at ticked ⊢
        exact schedule_mono ticked enough
      · rwa [if_neg spent] at ticked ⊢

theorem schedulerBlock_mono {fuel more : Nat} {s s' : Kernel H}
    (blocked : schedulerBlock fuel s = some s') (enough : fuel ≤ more) :
    schedulerBlock more s = some s' := by
  unfold schedulerBlock at blocked ⊢
  cases current : s.current with
  | none => simpa only [current] using blocked
  | some cur =>
      simp only [current] at blocked ⊢
      exact schedule_mono blocked enough

theorem processExit_mono {A : Allocator H} {fuel more : Nat} {s : Kernel H} {code : Int}
    {result : ExitOutcome × Kernel H}
    (exited : processExit A fuel s code = some result) (enough : fuel ≤ more) :
    processExit A more s code = some result := by
  unfold processExit at exited ⊢
  cases current : s.current with
  | none => simpa only [current] using exited
  | some cur =>
      simp only [current] at exited ⊢
      by_cases idle : (s.procs cur).pid = 0
      · simpa only [if_pos idle] using exited
      · rw [if_neg idle] at exited ⊢
        simp only [Option.bind_eq_bind, Option.bind_eq_some_iff] at exited ⊢
        obtain ⟨removed, first, scheduled, second, third⟩ := exited
        exact ⟨removed, schedulerRemove_mono first enough, scheduled,
          schedule_mono second enough, third⟩

theorem processWait_mono {A : Allocator H} {fuel more : Nat} {s : Kernel H} {pid : Int} {want : Bool}
    {result : WaitOutcome × Kernel H}
    (waited : processWait A fuel s pid want = some result) (enough : fuel ≤ more) :
    processWait A more s pid want = some result := by
  unfold processWait at waited ⊢
  cases current : s.current with
  | none => simpa only [current] using waited
  | some cur =>
      simp only [current] at waited ⊢
      by_cases idle : (s.procs cur).pid = 0
      · simpa only [if_pos idle] using waited
      · rw [if_neg idle] at waited ⊢
        by_cases own : (s.procs cur).pid = pid
        · simpa only [if_pos own] using waited
        · rw [if_neg own] at waited ⊢
          cases found : findTask s pid with
          | none => simpa only [found] using waited
          | some target =>
              simp only [found] at waited ⊢
              by_cases alive : (s.procs target).state ≠ .terminated
              · rw [if_pos alive] at waited ⊢
                simp only [Option.bind_eq_bind, Option.bind_eq_some_iff] at waited ⊢
                obtain ⟨switched, first, second⟩ := waited
                exact ⟨switched, schedule_mono first enough, second⟩
              · simpa only [if_neg alive] using waited

theorem scheduleSjf_mono {fuel more : Nat} {s s' : Kernel H}
    (scheduled : scheduleSjf fuel s = some s') (enough : fuel ≤ more) :
    scheduleSjf more s = some s' := by
  induction fuel generalizing more s with
  | zero => simp [scheduleSjf] at scheduled
  | succ fuel ih =>
      obtain ⟨rest, rfl⟩ : ∃ rest, more = rest + 1 := ⟨more - 1, by omega⟩
      unfold scheduleSjf at scheduled ⊢
      cases current : s.current with
      | none => simpa only [current] using scheduled
      | some cur =>
          simp only [current] at scheduled ⊢
          by_cases nothing : sjfPick s = 0
          · rw [if_pos nothing] at scheduled ⊢
            by_cases ready : 0 < (refreshSlices s).1
            · rw [if_pos ready] at scheduled ⊢
              exact ih scheduled (by omega)
            · rwa [if_neg ready] at scheduled ⊢
          · rwa [if_neg nothing] at scheduled ⊢

/-- More fuel never changes the result of an operation. -/
theorem exec_mono {A : Allocator H} {fuel more : Nat} {m m' : Machine H} {op : Op}
    (ran : exec A fuel m op = some m') (enough : fuel ≤ more) : exec A more m op = some m' := by
  cases op with
  | create entry arg priority => exact ran
  | schedule =>
      simp only [exec, Option.map_eq_some_iff] at ran ⊢
      obtain ⟨kernel, scheduled, same⟩ := ran
      exact ⟨kernel, schedule_mono scheduled enough, same⟩
  | scheduleSjf =>
      simp only [exec, Option.map_eq_some_iff] at ran ⊢
      obtain ⟨kernel, scheduled, same⟩ := ran
      exact ⟨kernel, scheduleSjf_mono scheduled enough, same⟩
  | doTimer =>
      simp only [exec, Option.map_eq_some_iff] at ran ⊢
      obtain ⟨kernel, ticked, same⟩ := ran
      exact ⟨kernel, doTimer_mono ticked enough, same⟩
  | wake proc => exact ran
  | block =>
      simp only [exec, Option.map_eq_some_iff] at ran ⊢
      obtain ⟨kernel, blocked, same⟩ := ran
      exact ⟨kernel, schedulerBlock_mono blocked enough, same⟩
  | setState proc state => exact ran
  | exit code =>
      simp only [exec, Option.map_eq_some_iff] at ran ⊢
      obtain ⟨result, exited, same⟩ := ran
      exact ⟨result, processExit_mono exited enough, same⟩
  | wait pid want =>
      simp only [exec, Option.map_eq_some_iff] at ran ⊢
      obtain ⟨result, waited, same⟩ := ran
      exact ⟨result, processWait_mono waited enough, same⟩
  | resume => exact ran

/-- The fuel of two successful executions does not matter. -/
theorem exec_det {A : Allocator H} {first second : Nat} {m m₁ m₂ : Machine H} {op : Op}
    (left : exec A first m op = some m₁) (right : exec A second m op = some m₂) : m₁ = m₂ :=
  unique_of_mono (fun _ _ _ => exec_mono) left right

end Fuel

end OsKernel.Proc
