import OsKernel.Library.Chain
import OsKernel.Process.Lifecycle

/-
This file relates the linked ready queue of `scheduler.c` to a list of processes.
Each queue operation changes links only, and the list changes as it should.
-/

namespace OsKernel.Proc
open OsKernel.Library

variable {H : Type}

/-- The link of each process. -/
def Kernel.links (s : Kernel H) (p : Addr) : Option Addr := (s.procs p).next

/-- The linked queue of the state holds exactly the listed processes, in order. -/
def Represents (s : Kernel H) (queue : List Addr) : Prop :=
  Queue s.links s.readyQueue.head s.readyQueue.tail queue

/-- This projection forgets the queue and its links. -/
def Kernel.unlinked (s : Kernel H) : Kernel H :=
  { s with
    readyQueue := ⟨none, none⟩
    procs := fun p => { s.procs p with next := none } }

/-- Two states agree on everything but the queue. -/
def Relinked (s s' : Kernel H) : Prop := s'.unlinked = s.unlinked

/-- This projection also forgets the current process and the states. -/
def Kernel.unscheduled (s : Kernel H) : Kernel H :=
  { s with
    current := none
    readyQueue := ⟨none, none⟩
    procs := fun p => { s.procs p with state := .created, next := none } }

/-- Two states agree on everything but the queue, the current process and the states. -/
def Rescheduled (s s' : Kernel H) : Prop := s'.unscheduled = s.unscheduled

/-- This projection forgets every field that scheduling and the timer change. -/
def Process.identity (p : Process) : Process :=
  { p with state := .created, next := none, counter := 0, cpuTime := 0 }

/-- This projection forgets the queue, the current process and the scheduling fields. -/
def Kernel.settled (s : Kernel H) : Kernel H :=
  { s with
    current := none
    readyQueue := ⟨none, none⟩
    procs := fun p => (s.procs p).identity }

/-- Two states have the same task table, the same allocations and the same process data. -/
def SameTasks (s s' : Kernel H) : Prop := s'.settled = s.settled

theorem Relinked.refl (s : Kernel H) : Relinked s s := rfl

theorem Relinked.trans {s₁ s₂ s₃ : Kernel H} (first : Relinked s₁ s₂) (second : Relinked s₂ s₃) :
    Relinked s₁ s₃ := Eq.trans second first

theorem Relinked.current {s s' : Kernel H} (same : Relinked s s') : s'.current = s.current := by
  have field := congrArg Kernel.current same
  exact field

theorem Relinked.state {s s' : Kernel H} (same : Relinked s s') (p : Addr) :
    (s'.procs p).state = (s.procs p).state := by
  have field := congrArg Process.state (congrFun (congrArg Kernel.procs same) p)
  exact field

theorem Relinked.rescheduled {s s' : Kernel H} (same : Relinked s s') : Rescheduled s s' := by
  have projected := congrArg Kernel.unscheduled same
  exact projected

theorem Rescheduled.refl (s : Kernel H) : Rescheduled s s := rfl

theorem Rescheduled.trans {s₁ s₂ s₃ : Kernel H} (first : Rescheduled s₁ s₂)
    (second : Rescheduled s₂ s₃) : Rescheduled s₁ s₃ := Eq.trans second first

theorem Rescheduled.sameTasks {s s' : Kernel H} (same : Rescheduled s s') : SameTasks s s' := by
  have projected := congrArg Kernel.settled same
  exact projected

theorem Relinked.sameTasks {s s' : Kernel H} (same : Relinked s s') : SameTasks s s' :=
  same.rescheduled.sameTasks

theorem SameTasks.refl (s : Kernel H) : SameTasks s s := rfl

theorem SameTasks.trans {s₁ s₂ s₃ : Kernel H} (first : SameTasks s₁ s₂)
    (second : SameTasks s₂ s₃) : SameTasks s₁ s₃ := Eq.trans second first

section SameTasks

variable {s s' : Kernel H} (same : SameTasks s s')
include same

theorem SameTasks.nextPid : s'.nextPid = s.nextPid := by
  have field := congrArg Kernel.nextPid same
  exact field

theorem SameTasks.task : s'.task = s.task := by
  have field := congrArg Kernel.task same
  exact field

theorem SameTasks.taskCount : s'.taskCount = s.taskCount := by
  have field := congrArg Kernel.taskCount same
  exact field

theorem SameTasks.heap : s'.heap = s.heap := by
  have field := congrArg Kernel.heap same
  exact field

theorem SameTasks.strayFrees : s'.strayFrees = s.strayFrees := by
  have field := congrArg Kernel.strayFrees same
  exact field

theorem SameTasks.identity (p : Addr) : (s'.procs p).identity = (s.procs p).identity :=
  congrFun (congrArg Kernel.procs same) p

theorem SameTasks.pid (p : Addr) : (s'.procs p).pid = (s.procs p).pid := by
  have field := congrArg Process.pid (same.identity p)
  exact field

theorem SameTasks.exitCode (p : Addr) : (s'.procs p).exitCode = (s.procs p).exitCode := by
  have field := congrArg Process.exitCode (same.identity p)
  exact field

theorem SameTasks.inTable (p : Addr) : s'.InTable p ↔ s.InTable p := Kernel.inTable_congr same.task p

end SameTasks

/-- A write to scheduling fields alone keeps the tasks. -/
theorem sameTasks_onProc (s : Kernel H) (p : Addr) (f : Process → Process)
    (keeps : (f (s.procs p)).identity = (s.procs p).identity) : SameTasks s (s.onProc p f) := by
  have procs : (fun q => ((s.onProc p f).procs q).identity) = fun q => (s.procs q).identity := by
    funext q
    by_cases equal : q = p
    · subst equal
      simpa using keeps
    · simp [equal]
  simp only [SameTasks, Kernel.settled, procs]
  rfl

/-- A write to one state leaves everything but the states. -/
theorem rescheduled_onProc (s : Kernel H) (p : Addr) (state : ProcessState) :
    Rescheduled s (s.onProc p fun q => { q with state := state }) := by
  have procs : (fun q => { (s.onProc p fun q => { q with state := state }).procs q with
      state := .created, next := none }) =
      fun q => { s.procs q with state := .created, next := none } := by
    funext q
    by_cases equal : q = p
    · subst equal
      simp
    · simp [equal]
  simp only [Rescheduled, Kernel.unscheduled, procs]
  rfl

/-- A write to one link leaves everything but the links. -/
theorem relinked_onProc (s : Kernel H) (p : Addr) (link : Option Addr) :
    Relinked s (s.onProc p fun q => { q with next := link }) := by
  have procs : (fun q => { (s.onProc p fun q => { q with next := link }).procs q with
      next := none }) = fun q => { s.procs q with next := none } := by
    funext q
    by_cases equal : q = p
    · subst equal
      simp
    · simp [equal]
  simp only [Relinked, Kernel.unlinked, procs]
  rfl

/-- New queue ends leave everything but the queue. -/
theorem relinked_readyQueue (s : Kernel H) (ends : ReadyQueue) :
    Relinked s { s with readyQueue := ends } := rfl

theorem links_onProc_next (s : Kernel H) (p : Addr) (link : Option Addr) :
    (s.onProc p fun q => { q with next := link }).links = Function.update s.links p link := by
  funext q
  by_cases equal : q = p
  · subst equal
    simp [Kernel.links]
  · simp [Kernel.links, equal]

/-- A write that keeps the link of its process keeps the queue. -/
theorem links_onProc_of_keeps (s : Kernel H) (p : Addr) (f : Process → Process)
    (keeps : (f (s.procs p)).next = (s.procs p).next) : (s.onProc p f).links = s.links := by
  funext q
  by_cases equal : q = p
  · subst equal
    simpa [Kernel.links] using keeps
  · simp [Kernel.links, equal]

theorem Represents.onProc {s : Kernel H} {queue : List Addr} (represented : Represents s queue)
    (p : Addr) (f : Process → Process) (keeps : (f (s.procs p)).next = (s.procs p).next) :
    Represents (s.onProc p f) queue := by
  unfold Represents
  rw [links_onProc_of_keeps s p f keeps]
  exact represented

theorem Represents.unique {s : Kernel H} {first second : List Addr}
    (left : Represents s first) (right : Represents s second) : first = second :=
  left.chain.unique right.chain

/-- Adding a process changes links only. -/
theorem schedulerAdd_relinked (s : Kernel H) (p : Addr) : Relinked s (schedulerAdd s (some p)) := by
  unfold schedulerAdd
  dsimp only
  have cleared := relinked_onProc s p none
  split
  · exact cleared.trans (relinked_readyQueue _ _)
  · rename_i head tail _ _
    exact (cleared.trans (relinked_onProc _ tail (some p))).trans (relinked_readyQueue _ _)
  · exact cleared

section Frame

variable {s s' : Kernel H}

/-- The process behind `cur` leaves the list. -/
def unlinkBehind (s : Kernel H) (p cur : Addr) : Kernel H :=
  { s.onProc cur fun r => { r with next := s.links p } with
    readyQueue := ⟨s.readyQueue.head, if s.readyQueue.tail = some p then some cur else s.readyQueue.tail⟩ }

theorem links_unlinkBehind (s : Kernel H) (p cur : Addr) :
    (unlinkBehind s p cur).links = Function.update s.links cur (s.links p) := links_onProc_next s cur (s.links p)

/-- The search ends in front of its process. -/
theorem unlinkFrom_behind {fuel : Nat} {p cur : Addr} (linked : s.links cur = some p) :
    unlinkFrom (fuel + 1) s p cur = some (unlinkBehind s p cur) := by
  have field : (s.procs cur).next = some p := linked
  simp only [unlinkFrom, field, if_true, Kernel.onProc_readyQueue, unlinkBehind]
  by_cases last : s.readyQueue.tail = some p
  · simp only [last, if_true]
    rfl
  · simp only [last, if_false]
    rfl

/-- In a list of any shape the search changes nothing, or it unlinks the process behind one that it has visited. -/
theorem unlinkFrom_cases {fuel : Nat} {p cur : Addr} {visited : Set Addr}
    (follows : ∀ x ∈ visited, ∀ y, s.links x = some y → y ∈ visited) (start : cur ∈ visited)
    (found : unlinkFrom fuel s p cur = some s') :
    s' = s ∨ ∃ c ∈ visited, s.links c = some p ∧ s' = unlinkBehind s p c := by
  induction fuel generalizing cur with
  | zero => cases found
  | succ fuel ih =>
      cases linked : s.links cur with
      | none =>
          have ends : (s.procs cur).next = none := linked
          simp only [unlinkFrom, ends] at found
          exact .inl (Option.some.inj found).symm
      | some node =>
          by_cases same : node = p
          · subst same
            rw [unlinkFrom_behind linked] at found
            exact .inr ⟨cur, start, linked, (Option.some.inj found).symm⟩
          · have continues : (s.procs cur).next = some node := linked
            simp only [unlinkFrom, continues] at found
            rw [if_neg same] at found
            exact ih (follows cur start node linked) found

/-- The unlinking search changes links only. -/
theorem unlinkFrom_relinked {fuel : Nat} {p cur : Addr} (found : unlinkFrom fuel s p cur = some s') :
    Relinked s s' := by
  rcases unlinkFrom_cases (fun x _ y _ => Set.mem_univ y) (Set.mem_univ cur) found with rfl | ⟨c, _, _, rfl⟩
  · exact .refl s'
  · exact (relinked_onProc s c (s.links p)).trans (relinked_readyQueue _ _)

theorem schedulerRemove_relinked {fuel : Nat} {proc : Option Addr}
    (removed : schedulerRemove fuel s proc = some s') : Relinked s s' := by
  unfold schedulerRemove at removed
  split at removed
  · exact Option.some.inj removed ▸ .refl s
  · exact Option.some.inj removed ▸ .refl s
  · split at removed
    · exact Option.some.inj removed ▸ relinked_readyQueue s _
    · exact unlinkFrom_relinked removed

theorem requeueCurrent_rescheduled (s : Kernel H) : Rescheduled s (requeueCurrent s) := by
  unfold requeueCurrent
  split
  · exact .refl s
  · split
    · exact (rescheduled_onProc s _ .ready).trans (schedulerAdd_relinked _ _).rescheduled
    · exact .refl s

/-- A call of `schedule()` that returns changes only the queue, the current process and the states. -/
theorem schedule_rescheduled {fuel : Nat} (ran : schedule fuel s = some s') : Rescheduled s s' := by
  unfold schedule at ran
  dsimp only at ran
  split at ran
  · exact Option.some.inj ran ▸ .refl s
  · have requeued := requeueCurrent_rescheduled s
    split at ran
    · exact Option.some.inj ran ▸ requeued
    · rename_i n _
      have written := requeued.trans (rescheduled_onProc (requeueCurrent s) n .running)
      have moved : Rescheduled s
          { (requeueCurrent s).onProc n fun p => { p with state := .running } with current := some n } := written
      exact moved.trans (schedulerRemove_relinked ran).rescheduled

theorem schedulerWake_rescheduled (s : Kernel H) (p : Addr) : Rescheduled s (schedulerWake s (some p)) := by
  unfold schedulerWake
  dsimp only
  split
  · exact (rescheduled_onProc s p .ready).trans (schedulerAdd_relinked _ p).rescheduled
  · exact .refl s

theorem wakeSlot_rescheduled (s : Kernel H) (i : Fin 64) : Rescheduled s (wakeSlot s i) := by
  unfold wakeSlot
  split
  · split
    · exact schedulerWake_rescheduled s _
    · exact .refl s
  · exact .refl s

/-- The wake loop changes only the queue and the states. -/
theorem wakeWaiters_rescheduled (s : Kernel H) : Rescheduled s (wakeWaiters s) := by
  unfold wakeWaiters
  generalize taskRange s = slots
  induction slots generalizing s with
  | nil => exact .refl s
  | cons i rest ih => exact (wakeSlot_rescheduled s i).trans (ih (wakeSlot s i))

end Frame

/-- Adding a process that is not queued appends it. -/
theorem schedulerAdd_represents {s : Kernel H} {queue : List Addr} {p : Addr}
    (represented : Represents s queue) (fresh : p ∉ queue) :
    Represents (schedulerAdd s (some p)) (queue ++ [p]) := by
  unfold schedulerAdd Represents
  simp only [Kernel.onProc_readyQueue]
  cases queue with
  | nil =>
      have empty : s.readyQueue.head = none := represented.chain
      simp only [empty]
      apply Queue.single
      simp [Kernel.links]
  | cons first rest =>
      have head : s.readyQueue.head = some first := represented.chain.1
      obtain ⟨last, tail⟩ : ∃ last, s.readyQueue.tail = some last := by
        rw [represented.last, List.getLast?_cons]
        exact ⟨_, rfl⟩
      have linked : Queue s.links (some first) (some last) (first :: rest) := by
        rw [← head, ← tail]
        exact represented
      have extended := linked.enqueue fresh
      simp only [head, tail]
      change Queue (((s.onProc p fun q => { q with next := none }).onProc last
        fun q => { q with next := some p }).links) _ _ _
      rw [links_onProc_next, links_onProc_next]
      exact extended

/-- Unlinking drops one process from the list. -/
theorem Represents.unlinkBehind {s : Kernel H} {p cur : Addr} {before rest : List Addr}
    (represented : Represents s (before ++ cur :: p :: rest)) :
    Represents (unlinkBehind s p cur) (before ++ cur :: rest) := by
  unfold Represents
  rw [links_unlinkBehind]
  exact Queue.unlink represented

/-- The search unlinks its process, and stops at the end of the queue. -/
theorem unlinkFrom_represents {fuel : Nat} {s : Kernel H} {p cur : Addr} {before rest : List Addr}
    (represented : Represents s (before ++ cur :: rest)) (outside : p ∉ before ++ [cur])
    (enough : rest.length < fuel) :
    ∃ s', unlinkFrom fuel s p cur = some s' ∧ Represents s' (before ++ cur :: rest.erase p) := by
  induction fuel generalizing before cur rest with
  | zero => omega
  | succ fuel ih =>
      have suffix : Chain s.links (s.links cur) rest := represented.chain.suffix
      cases rest with
      | nil =>
          have ends : (s.procs cur).next = none := suffix
          simp only [unlinkFrom, ends]
          exact ⟨s, rfl, by simpa using represented⟩
      | cons node others =>
          by_cases same : node = p
          · subst same
            rw [List.erase_cons_head]
            exact ⟨_, unlinkFrom_behind suffix.1, represented.unlinkBehind⟩
          · have continues : (s.procs cur).next = some node := suffix.1
            simp only [unlinkFrom, continues]
            rw [if_neg same]
            have step : Represents s ((before ++ [cur]) ++ node :: others) := by
              simpa using represented
            have further : p ∉ (before ++ [cur]) ++ [node] := by
              simp only [List.mem_append, List.mem_singleton] at outside ⊢
              rintro (earlier | equal)
              · exact outside earlier
              · exact same equal.symm
            obtain ⟨s', found, result⟩ := ih step further (by simpa using enough)
            refine ⟨s', found, ?_⟩
            rw [List.erase_cons_tail (by simpa using same)]
            simpa using result

/-- Removing a process drops it from the list, wherever it stands, and always ends. -/
theorem schedulerRemove_represents {fuel : Nat} {s : Kernel H} {queue : List Addr} (p : Addr)
    (represented : Represents s queue) (enough : queue.length ≤ fuel) :
    ∃ s', schedulerRemove fuel s (some p) = some s' ∧ Represents s' (queue.erase p) := by
  unfold schedulerRemove
  cases queue with
  | nil =>
      have empty : s.readyQueue.head = none := represented.chain
      rw [empty]
      exact ⟨s, rfl, by simpa using represented⟩
  | cons head rest =>
      have first : s.readyQueue.head = some head := represented.chain.1
      rw [first]
      dsimp only
      by_cases same : head = p
      · subst same
        rw [if_pos rfl, List.erase_cons_head]
        exact ⟨_, rfl, Queue.dequeue represented⟩
      · rw [if_neg same, List.erase_cons_tail (by simpa using same)]
        have start : Represents s ([] ++ head :: rest) := represented
        exact unlinkFrom_represents start (by simpa using Ne.symm same) (by simpa using enough)

end OsKernel.Proc
