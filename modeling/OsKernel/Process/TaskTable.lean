import OsKernel.Process.ReadyQueue

/-
This file keeps the task table of `process.c` in order.
The count is one more than the last used slot, and slot 0 belongs to idle.
-/

namespace OsKernel.Proc

variable {H : Type}

/-- The table starts with idle, ends at its count and names no process twice. -/
structure TableOk (s : Kernel H) : Prop where
  idle : ∃ i, s.task 0 = some i ∧ (s.procs i).pid = 0
  countLe : s.taskCount ≤ 64
  below : ∀ i p, s.task i = some p → i.val < s.taskCount
  top : ∃ i p, s.task i = some p ∧ i.val + 1 = s.taskCount
  inj : ∀ i j p, s.task i = some p → s.task j = some p → i = j

theorem TableOk.countPos {s : Kernel H} (ok : TableOk s) : 1 ≤ s.taskCount := by
  obtain ⟨i, _, _, last⟩ := ok.top
  omega

/-- The table, its count and the pid of its processes are all that matters. -/
theorem TableOk.congr {s s' : Kernel H} (ok : TableOk s) (tasks : s'.task = s.task)
    (count : s'.taskCount = s.taskCount)
    (pids : ∀ p, s.InTable p → (s'.procs p).pid = (s.procs p).pid) : TableOk s' where
  idle := by
    obtain ⟨i, first, zero⟩ := ok.idle
    exact ⟨i, by rw [tasks, first], by rw [pids i ⟨0, first⟩, zero]⟩
  countLe := by simpa only [count] using ok.countLe
  below := by simpa only [tasks, count] using ok.below
  top := by simpa only [tasks, count] using ok.top
  inj := by simpa only [tasks] using ok.inj

/-- Scheduling does not touch the table. -/
theorem TableOk.of_sameTasks {s s' : Kernel H} (ok : TableOk s) (same : SameTasks s s') :
    TableOk s' :=
  ok.congr same.task same.taskCount fun p _ => same.pid p

@[simp] theorem mem_taskRange {s : Kernel H} {i : Fin 64} :
    i ∈ taskRange s ↔ i.val < s.taskCount := by
  simp [taskRange]

/-- The loops visit the slots in increasing order. -/
theorem taskRange_sorted (s : Kernel H) : (taskRange s).Pairwise (· < ·) :=
  (List.pairwise_lt_finRange 64).filter _

/-- What a check of every slot has found holds of each task. -/
theorem of_all_tasks {s : Kernel H} {good : Addr → Prop} [DecidablePred good]
    (checked : ∀ i, (s.task i).all fun p => good p) {i : Fin 64} {p : Addr} (entry : s.task i = some p) : good p := by
  have known := checked i
  rw [entry] at known
  exact of_decide_eq_true known

section Lookup

/-- A process that the lookup returns is in the table and has the pid. -/
theorem findTask_some {s : Kernel H} {pid : Int} {p : Addr} (found : findTask s pid = some p) :
    s.InTable p ∧ (s.procs p).pid = pid := by
  obtain ⟨i, _, chosen⟩ := List.exists_of_findSome?_eq_some found
  cases entry : s.task i with
  | none => simp [entry] at chosen
  | some q =>
      simp only [entry, Option.ite_none_right_eq_some, Option.some.injEq] at chosen
      obtain ⟨matching, rfl⟩ := chosen
      exact ⟨⟨i, entry⟩, matching⟩

/-- The lookup misses no process of the table. -/
theorem TableOk.findTask_none {s : Kernel H} (ok : TableOk s) {pid : Int}
    (missing : findTask s pid = none) (p : Addr) (member : s.InTable p) :
    (s.procs p).pid ≠ pid := by
  obtain ⟨i, entry⟩ := member
  have skipped := List.findSome?_eq_none_iff.mp missing i (by simpa using ok.below i p entry)
  simpa [entry] using skipped

end Lookup

section Install

/-- The first free slot is free and does not lie past the count. -/
theorem freeSlot_some {s : Kernel H} {i : Fin 64} (found : freeSlot s = some i) :
    s.task i = none ∧ ∀ j, s.task j = none → i ≤ j := by
  unfold freeSlot at found
  obtain ⟨isFree, before, after, split, earlier⟩ := List.find?_eq_some_iff_append.mp found
  refine ⟨by simpa using isFree, ?_⟩
  intro j free
  have sorted := List.pairwise_lt_finRange 64
  have member : j ∈ before ++ i :: after := split ▸ List.mem_finRange j
  rw [split, List.pairwise_append] at sorted
  rcases List.mem_append.mp member with first | later
  · have used := earlier j first
    simp [free] at used
  · rcases List.mem_cons.mp later with same | last
    · exact le_of_eq same.symm
    · exact le_of_lt ((List.pairwise_cons.mp sorted.2.1).1 j last)

/-- Below the limit the slot at the count is free, so the search succeeds. -/
theorem TableOk.freeSlot_exists {s : Kernel H} (ok : TableOk s) (room : s.taskCount < 64) :
    ∃ i, freeSlot s = some i ∧ s.task i = none ∧ i.val ≤ s.taskCount := by
  have next : s.task ⟨s.taskCount, room⟩ = none := by
    cases entry : s.task ⟨s.taskCount, room⟩ with
    | none => rfl
    | some p => exact absurd (ok.below _ p entry) (lt_irrefl _)
  cases found : freeSlot s with
  | none =>
      have used := List.find?_eq_none.mp found ⟨s.taskCount, room⟩ (List.mem_finRange _)
      simp [next] at used
  | some i =>
      obtain ⟨free, first⟩ := freeSlot_some found
      exact ⟨i, rfl, free, first _ next⟩

/-- An installation changes the slots and their count only. -/
theorem installTask_eq (s : Kernel H) (p : Addr) :
    ∃ task count, installTask s p = { s with task := task, taskCount := count } := by
  unfold installTask
  split
  · exact ⟨s.task, s.taskCount, rfl⟩
  · exact ⟨_, _, rfl⟩

/-- A new process takes exactly one slot. -/
theorem TableOk.installTask {s : Kernel H} (ok : TableOk s) (room : s.taskCount < 64) {p : Addr}
    (fresh : ¬ s.InTable p) :
    TableOk (installTask s p) ∧
      ∃ i, s.task i = none ∧ (installTask s p).task = Function.update s.task i (some p) := by
  obtain ⟨i, found, free, within⟩ := ok.freeSlot_exists room
  have installed : OsKernel.Proc.installTask s p =
      { s with
        task := Function.update s.task i (some p)
        taskCount := if s.taskCount ≤ i.val then i.val + 1 else s.taskCount } := by
    simp only [OsKernel.Proc.installTask, found]
  have count : (if s.taskCount ≤ i.val then i.val + 1 else s.taskCount) =
      max s.taskCount (i.val + 1) := by
    split <;> omega
  obtain ⟨idle, first, pid⟩ := ok.idle
  have notIdle : (0 : Fin 64) ≠ i := by
    intro same
    rw [← same, first] at free
    simp at free
  refine ⟨?_, i, free, by rw [installed]⟩
  rw [installed]
  refine ⟨⟨idle, by simpa [notIdle] using first, pid⟩, ?_, ?_, ?_, ?_⟩
  · simp only [count]
    omega
  · intro j q entry
    dsimp only at entry
    simp only [count]
    by_cases same : j = i
    · subst same
      omega
    · rw [Function.update_of_ne same] at entry
      have := ok.below j q entry
      omega
  · simp only [count]
    by_cases past : s.taskCount ≤ i.val
    · exact ⟨i, p, by simp, by omega⟩
    · obtain ⟨j, q, entry, last⟩ := ok.top
      have different : j ≠ i := by
        intro same
        rw [same, free] at entry
        simp at entry
      exact ⟨j, q, by simpa [different] using entry, by omega⟩
  · intro j k q left right
    dsimp only at left right
    by_cases first : j = i
    · by_cases second : k = i
      · rw [first, second]
      · simp only [first, Function.update_self, Option.some.injEq, Function.update_of_ne second]
          at left right
        exact absurd ⟨k, left ▸ right⟩ fresh
    · by_cases second : k = i
      · simp only [second, Function.update_self, Option.some.injEq, Function.update_of_ne first]
          at left right
        exact absurd ⟨j, right ▸ left⟩ fresh
      · rw [Function.update_of_ne first] at left
        rw [Function.update_of_ne second] at right
        exact ok.inj j k q left right

end Install

section Remove

/-- The clearing loop stops at the only slot of the process. -/
theorem TableOk.clearTask {s : Kernel H} (ok : TableOk s) {i : Fin 64} {p : Addr}
    (entry : s.task i = some p) :
    clearTask s p = { s with task := Function.update s.task i none } := by
  unfold OsKernel.Proc.clearTask
  cases found : (taskRange s).find? fun j => s.task j = some p with
  | none =>
      have missed := List.find?_eq_none.mp found i (by simpa using ok.below i p entry)
      simp [entry] at missed
  | some j =>
      have holds : s.task j = some p := by simpa using List.find?_some found
      rw [ok.inj j i p holds entry]

/-- The recount loop remembers the last used slot it has seen. -/
theorem recount_fold (used : Fin 64 → Bool) (slots : List (Fin 64)) (count : Nat)
    (sorted : slots.Pairwise (· < ·)) (before : ∀ i ∈ slots, count ≤ i.val) :
    let result := slots.foldl (fun n i => if used i then i.val + 1 else n) count
    (∀ i ∈ slots, used i → i.val < result) ∧ count ≤ result ∧
      (result = count ∨ ∃ i ∈ slots, used i ∧ i.val + 1 = result) := by
  induction slots generalizing count with
  | nil => simp
  | cons i rest ih =>
      obtain ⟨first, later⟩ := List.pairwise_cons.mp sorted
      simp only [List.foldl_cons]
      by_cases holds : used i
      · rw [if_pos holds]
        have bounds : ∀ j ∈ rest, i.val + 1 ≤ j.val := fun j member => first j member
        obtain ⟨all, grows, last⟩ := ih (i.val + 1) later bounds
        have start := before i (by simp)
        refine ⟨?_, by omega, Or.inr ?_⟩
        · intro j member isUsed
          rcases List.mem_cons.mp member with same | further
          · rw [same]
            omega
          · exact all j further isUsed
        · rcases last with same | ⟨j, member, isUsed, final⟩
          · exact ⟨i, by simp, holds, same.symm⟩
          · exact ⟨j, by simp [member], isUsed, final⟩
      · rw [if_neg holds]
        obtain ⟨all, grows, last⟩ := ih count later fun j member => before j (by simp [member])
        refine ⟨?_, grows, ?_⟩
        · intro j member isUsed
          rcases List.mem_cons.mp member with same | further
          · exact absurd (same ▸ isUsed) holds
          · exact all j further isUsed
        · rcases last with same | ⟨j, member, isUsed, final⟩
          · exact Or.inl same
          · exact Or.inr ⟨j, by simp [member], isUsed, final⟩

/-- The count lies just past the last used slot below the old count. -/
theorem newCount_spec (s : Kernel H) :
    (∀ i : Fin 64, i.val < s.taskCount → (s.task i).isSome → i.val < newCount s) ∧
      (newCount s = 0 ∨ ∃ i : Fin 64, (s.task i).isSome ∧ i.val + 1 = newCount s) := by
  obtain ⟨all, _, last⟩ := recount_fold (fun i => (s.task i).isSome) (taskRange s) 0
    (taskRange_sorted s) (by simp)
  refine ⟨fun i range used => all i (by simpa using range) used, ?_⟩
  rcases last with zero | ⟨i, _, used, final⟩
  · exact Or.inl zero
  · exact Or.inr ⟨i, used, final⟩

/-- The recount restores the table after one slot other than idle's was cleared. -/
theorem TableOk.recount {s : Kernel H} (ok : TableOk s) {i : Fin 64} {p : Addr}
    (entry : s.task i = some p) (notIdle : s.task 0 ≠ some p) {cleared : Kernel H}
    (tasks : cleared.task = Function.update s.task i none)
    (count : cleared.taskCount = s.taskCount)
    (pids : ∀ q, (cleared.procs q).pid = (s.procs q).pid) : TableOk (recount cleared) := by
  obtain ⟨idle, first, pid⟩ := ok.idle
  have different : (0 : Fin 64) ≠ i := by
    intro same
    exact notIdle (same ▸ entry)
  have idleStays : cleared.task 0 = some idle := by rw [tasks, Function.update_of_ne different, first]
  have inherited : ∀ j q, cleared.task j = some q → s.task j = some q := by
    intro j q holds
    by_cases same : j = i
    · simp [tasks, same] at holds
    · rwa [tasks, Function.update_of_ne same] at holds
  obtain ⟨all, last⟩ := newCount_spec cleared
  have positive : 0 < newCount cleared := by
    have inside := all 0 (by rw [count]; exact ok.countPos) (by simp [idleStays])
    exact lt_of_le_of_lt (Nat.zero_le _) inside
  have counted : OsKernel.Proc.recount cleared = { cleared with taskCount := newCount cleared } := by
    rw [OsKernel.Proc.recount, if_pos positive]
  rw [counted]
  rcases last with zero | ⟨top, used, final⟩
  · omega
  · refine ⟨⟨idle, idleStays, (pids idle).trans pid⟩, ?_, ?_, ?_, ?_⟩
    · have := top.isLt
      dsimp only
      omega
    · intro j q holds
      have range : j.val < cleared.taskCount := by
        rw [count]
        exact ok.below j q (inherited j q holds)
      exact all j range (by simp [show cleared.task j = some q from holds])
    · obtain ⟨q, holds⟩ := Option.isSome_iff_exists.mp used
      exact ⟨top, q, holds, final⟩
    · intro j k q left right
      exact ok.inj j k q (inherited j q left) (inherited k q right)

end Remove

end OsKernel.Proc
