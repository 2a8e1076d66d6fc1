import OsKernel.Library.Loops
import OsKernel.Process.Machine
import OsKernel.Process.TaskTable

/-
This file proves that `schedule_sjf` picks the shortest ready job of any task table.
-/

namespace OsKernel.Proc
open OsKernel.Library

variable {H : Type} {s s' : Kernel H}

/-- The slot past the first and below the count holds a ready process. -/
def Waiting (s : Kernel H) (i : Fin 64) (p : Addr) : Prop :=
  i ≠ 0 ∧ i.val < s.taskCount ∧ s.task i = some p ∧ (s.procs p).state = .ready

instance (s : Kernel H) (i : Fin 64) (p : Addr) : Decidable (Waiting s i p) := inferInstanceAs (Decidable (_ ∧ _))

/-- The process has the smallest slice that is not zero, at the lowest slot with this slice. -/
structure Shortest (s : Kernel H) (slice : Addr → Nat) (i : Fin 64) (p : Addr) : Prop where
  waiting : Waiting s i p
  positive : 0 < slice p
  least : ∀ j q, Waiting s j q → 0 < slice q → slice p ≤ slice q
  lowest : ∀ j q, Waiting s j q → slice q = slice p → i ≤ j

section Pick

/-- The counter of a slot that can be picked. -/
def sjfKey (s : Kernel H) (i : Fin 64) : Option Nat :=
  match s.task i with
  | some p => if (s.procs p).state = .ready ∧ 0 < (s.procs p).counter then some (s.procs p).counter else none
  | none => none

theorem sjfVisit_eq (s : Kernel H) : sjfVisit s = keepLeast (sjfKey s) := by
  funext best i
  unfold sjfVisit keepLeast sjfKey
  cases s.task i with
  | none => rfl
  | some p =>
      by_cases eligible : (s.procs p).state = .ready ∧ 0 < (s.procs p).counter
      · simp [eligible]
      · have skipped : ¬ ((s.procs p).state = .ready ∧ 0 < (s.procs p).counter ∧ (s.procs p).counter < best.2) :=
          fun all => eligible ⟨all.1, all.2.1⟩
        simp only [if_neg skipped, if_neg eligible]

@[simp] theorem mem_sjfRange {i : Fin 64} : i ∈ sjfRange s ↔ i ≠ 0 ∧ i.val < s.taskCount := by
  simp [sjfRange, and_comm]

theorem sjfKey_of_waiting {i : Fin 64} {p : Addr} (waiting : Waiting s i p) (positive : 0 < (s.procs p).counter) :
    i ∈ sjfRange s ∧ sjfKey s i = some (s.procs p).counter := by
  obtain ⟨past, below, entry, ready⟩ := waiting
  exact ⟨mem_sjfRange.mpr ⟨past, below⟩, by simp [sjfKey, entry, ready, positive]⟩

theorem waiting_of_sjfKey {i : Fin 64} {k : Nat} (member : i ∈ sjfRange s) (found : sjfKey s i = some k) :
    ∃ p, Waiting s i p ∧ 0 < (s.procs p).counter ∧ (s.procs p).counter = k := by
  obtain ⟨past, below⟩ := mem_sjfRange.mp member
  unfold sjfKey at found
  cases entry : s.task i with
  | none => simp [entry] at found
  | some p =>
      simp only [entry, Option.ite_none_right_eq_some, Option.some.injEq] at found
      obtain ⟨⟨ready, positive⟩, same⟩ := found
      exact ⟨p, ⟨past, below, entry, ready⟩, positive, same⟩

/-- The scan finds nothing when every waiting counter is zero or too large, and else the shortest job. -/
theorem sjfPick_cases (s : Kernel H) :
    (sjfPick s = 0 ∧ ∀ i p, Waiting s i p → (s.procs p).counter = 0 ∨ 0xFFFFFFFF ≤ (s.procs p).counter) ∨
    ∃ p, (s.procs p).counter < 0xFFFFFFFF ∧ Shortest s (fun q => (s.procs q).counter) (sjfPick s) p := by
  have sorted : (sjfRange s).Pairwise (· < ·) := (taskRange_sorted s).filter _
  rw [sjfPick, sjfVisit_eq]
  rcases foldl_keepLeast (sjfKey s) (sjfRange s) (0, 0xFFFFFFFF) with
    ⟨same, above⟩ | ⟨before, i, after, k, shape, found, small, same, less, least⟩
  · refine .inl ⟨by rw [same], ?_⟩
    intro i p waiting
    by_cases zero : (s.procs p).counter = 0
    · exact .inl zero
    · obtain ⟨member, key⟩ := sjfKey_of_waiting waiting (by omega)
      exact .inr (above i member _ key)
  · rw [same]
    obtain ⟨p, waiting, positive, rfl⟩ := waiting_of_sjfKey (by rw [shape]; simp) found
    refine .inr ⟨p, small, waiting, positive, ?_, ?_⟩
    · intro j q other known
      obtain ⟨member, key⟩ := sjfKey_of_waiting other known
      rw [shape, List.mem_append, List.mem_cons] at member
      rcases member with earlier | rfl | later
      · exact le_of_lt (less j earlier _ key)
      · rw [found] at key
        exact le_of_eq (Option.some.inj key)
      · exact least j later _ key
    · intro j q other equal
      obtain ⟨member, key⟩ := sjfKey_of_waiting other (by omega)
      rw [shape, List.mem_append, List.mem_cons] at member
      rw [shape, List.pairwise_append] at sorted
      rcases member with earlier | rfl | later
      · have strict := less j earlier _ key
        omega
      · exact le_refl _
      · exact le_of_lt (List.rel_of_pairwise_cons sorted.2.1 later)

end Pick

section Refresh

/-- A new time slice by the priority. -/
def renew (p : Process) : Process := { p with counter := counterInitValues.getD (p.priority % 5) 0 }

/-- Every waiting process has a new time slice. -/
def refreshed (s : Kernel H) (slots : List (Fin 64)) : Kernel H :=
  { s with procs := fun q =>
      if ∃ i ∈ slots, s.task i = some q ∧ (s.procs q).state = .ready then renew (s.procs q) else s.procs q }

theorem refreshed_cons (i : Fin 64) (slots : List (Fin 64)) {p : Addr} (entry : s.task i = some p)
    (ready : (s.procs p).state = .ready) : refreshed (s.onProc p renew) slots = refreshed s (i :: slots) := by
  unfold refreshed
  congr 1
  funext q
  by_cases same : q = p
  · subst same
    have listed : ∃ j ∈ i :: slots, s.task j = some q ∧ (s.procs q).state = .ready := ⟨i, by simp, entry, ready⟩
    rw [if_pos listed, Kernel.onProc_self]
    split
    · rfl
    · rfl
  · have other : s.task i ≠ some q := fun clash => same (Option.some.inj (clash.symm.trans entry))
    simp only [Kernel.onProc_task, Kernel.onProc_of_ne _ _ _ _ same, List.mem_cons, exists_eq_or_imp, other,
      false_and, false_or]

theorem refreshed_skip (i : Fin 64) (slots : List (Fin 64))
    (idle : ∀ p, s.task i = some p → (s.procs p).state ≠ .ready) : refreshed s (i :: slots) = refreshed s slots := by
  unfold refreshed
  congr 1
  funext q
  have none : ¬ (s.task i = some q ∧ (s.procs q).state = .ready) := fun both => idle q both.1 both.2
  simp only [List.mem_cons, exists_eq_or_imp, none, false_or]

/-- The refresh loop counts the ready slots and renews their processes. -/
theorem foldl_refreshSlot (slots : List (Fin 64)) (count : Nat) (s : Kernel H) :
    (slots.foldl refreshSlot (count, s)).2 = refreshed s slots ∧ count ≤ (slots.foldl refreshSlot (count, s)).1 ∧
      ((slots.foldl refreshSlot (count, s)).1 = count ↔
        ∀ i ∈ slots, ∀ p, s.task i = some p → (s.procs p).state ≠ .ready) := by
  induction slots generalizing count s with
  | nil => exact ⟨by simp [refreshed], le_refl _, by simp⟩
  | cons i rest ih =>
      rw [List.foldl_cons]
      by_cases busy : ∃ p, s.task i = some p ∧ (s.procs p).state = .ready
      · obtain ⟨p, entry, ready⟩ := busy
        have step : refreshSlot (count, s) i = (count + 1, s.onProc p renew) := by
          simp [refreshSlot, entry, ready]
          rfl
        obtain ⟨state, grows, _⟩ := ih (count + 1) (s.onProc p renew)
        rw [step]
        refine ⟨state.trans (refreshed_cons i rest entry ready), by omega, ?_⟩
        constructor
        · intro same
          omega
        · intro none
          exact absurd ready (none i (by simp) p entry)
      · have idle : ∀ p, s.task i = some p → (s.procs p).state ≠ .ready := by
          intro p entry ready
          exact busy ⟨p, entry, ready⟩
        have step : refreshSlot (count, s) i = (count, s) := by
          unfold refreshSlot
          cases entry : s.task i with
          | none => simp
          | some p => simp [idle p entry]
        obtain ⟨state, grows, counted⟩ := ih count s
        rw [step]
        refine ⟨state.trans (refreshed_skip i rest idle).symm, grows, ?_⟩
        rw [counted, List.forall_mem_cons]
        exact (and_iff_right idle).symm

/-- The time slice that a process has after a refresh. -/
def freshSlice (s : Kernel H) (q : Addr) : Nat :=
  if ∃ i, Waiting s i q then counterInitValues.getD ((s.procs q).priority % 5) 0 else (s.procs q).counter

/-- The refresh changes only the counters. -/
theorem refreshSlices_eq (s : Kernel H) : (refreshSlices s).2 =
    { s with procs := fun q => { s.procs q with counter := freshSlice s q } } := by
  have blocks : (refreshed s (sjfRange s)).procs = fun q => { s.procs q with counter := freshSlice s q } := by
    funext q
    have same : (∃ i ∈ sjfRange s, s.task i = some q ∧ (s.procs q).state = .ready) ↔ ∃ i, Waiting s i q := by
      simp only [mem_sjfRange, Waiting, and_assoc]
    rw [refreshed]
    dsimp only
    by_cases waiting : ∃ i, Waiting s i q
    · rw [if_pos (same.mpr waiting), freshSlice, if_pos waiting]
      rfl
    · rw [if_neg (same.not.mpr waiting), freshSlice, if_neg waiting]
  calc (refreshSlices s).2
      = refreshed s (sjfRange s) := by rw [refreshSlices, (foldl_refreshSlot (sjfRange s) 0 s).1]
    _ = { s with procs := (refreshed s (sjfRange s)).procs } := by rw [refreshed]
    _ = { s with procs := fun q => { s.procs q with counter := freshSlice s q } } := by rw [blocks]

/-- The refresh counts somebody exactly when somebody waits. -/
theorem refreshSlices_pos (s : Kernel H) : 0 < (refreshSlices s).1 ↔ ∃ i p, Waiting s i p := by
  have counted := (foldl_refreshSlot (sjfRange s) 0 s).2.2
  rw [refreshSlices, Nat.pos_iff_ne_zero, Ne, counted]
  constructor
  · intro somebody
    push Not at somebody
    obtain ⟨i, member, p, entry, ready⟩ := somebody
    obtain ⟨past, below⟩ := mem_sjfRange.mp member
    exact ⟨i, p, past, below, entry, ready⟩
  · rintro ⟨i, p, past, below, entry, ready⟩ none
    exact none i (mem_sjfRange.mpr ⟨past, below⟩) p entry ready

/-- After a refresh the same processes wait. -/
theorem waiting_refreshSlices {i : Fin 64} {p : Addr} : Waiting (refreshSlices s).2 i p ↔ Waiting s i p := by
  rw [refreshSlices_eq]
  rfl

/-- A time slice is at most 4. -/
theorem slice_le (priority : Nat) : counterInitValues.getD (priority % 5) 0 ≤ 4 := by
  have bound : ∀ n < 5, counterInitValues.getD n 0 ≤ 4 := by decide
  exact bound _ (Nat.mod_lt _ (by norm_num))

/-- Only the priorities that are multiples of 5 have no time slice. -/
theorem slice_pos {priority : Nat} : 0 < counterInitValues.getD (priority % 5) 0 ↔ priority % 5 ≠ 0 := by
  have decided : ∀ n < 5, 0 < counterInitValues.getD n 0 ↔ n ≠ 0 := by decide
  exact decided _ (Nat.mod_lt _ (by norm_num))

/-- After a refresh a process whose priority has a time slice can be picked. -/
theorem sjfPick_refreshSlices {i : Fin 64} {p : Addr} (waiting : Waiting s i p)
    (entitled : (s.procs p).priority % 5 ≠ 0) : sjfPick (refreshSlices s).2 ≠ 0 := by
  have fresh : freshSlice s p = counterInitValues.getD ((s.procs p).priority % 5) 0 := if_pos ⟨i, waiting⟩
  rcases sjfPick_cases (refreshSlices s).2 with ⟨_, none⟩ | ⟨q, _, shortest⟩
  · have clash := none i p (waiting_refreshSlices.mpr waiting)
    have positive := slice_pos.mpr entitled
    have small := slice_le (s.procs p).priority
    rw [refreshSlices_eq] at clash
    dsimp only at clash
    omega
  · exact shortest.waiting.1

end Refresh

section Switch

variable {cur p : Addr}

/-- A switch to another process stores `current` and the two states. -/
theorem switchTo_eq (current : s.current = some cur) (other : cur ≠ p) :
    switchTo s (some p) = { s with
      current := some p
      procs := fun q =>
        if q = p then { s.procs q with state := .running }
        else if q = cur ∧ (s.procs q).state = .running then { s.procs q with state := .ready }
        else s.procs q } := by
  simp only [switchTo, current, if_neg other]
  by_cases running : (s.procs cur).state = .running
  · rw [if_pos running]
    simp only [Kernel.onProc]
    congr 1
    funext q
    by_cases next : q = p
    · subst next
      simp [Ne.symm other]
    · by_cases same : q = cur
      · subst same
        simp [next, running]
      · simp [next, same]
  · rw [if_neg running]
    simp only [Kernel.onProc]
    congr 1
    funext q
    by_cases next : q = p
    · subst next
      simp
    · by_cases same : q = cur
      · subst same
        simp [next, running]
      · simp [next, same]

/-- The switch to `p` changes `current`, the two states and the counters to `slice`, and nothing else. -/
structure SwitchedTo (s s' : Kernel H) (slice : Addr → Nat) (cur p : Addr) : Prop where
  current : s'.current = some p
  running : (s'.procs p).state = .running
  previous : (s'.procs cur).state = if (s.procs cur).state = .running then .ready else (s.procs cur).state
  others : ∀ q, q ≠ cur → q ≠ p → (s'.procs q).state = (s.procs q).state
  counters : ∀ q, (s'.procs q).counter = slice q
  fields : ∀ q, s'.procs q = { s.procs q with state := (s'.procs q).state, counter := (s'.procs q).counter }
  rest : s' = { s with current := s'.current, procs := s'.procs }

theorem switchTo_switchedTo {slice : Addr → Nat} (current : s.current = some cur) (other : cur ≠ p) :
    SwitchedTo s (switchTo { s with procs := fun q => { s.procs q with counter := slice q } } (some p)) slice cur p := by
  rw [switchTo_eq (s := { s with procs := fun q => { s.procs q with counter := slice q } }) current other]
  refine ⟨rfl, by simp, ?_, ?_, ?_, ?_, rfl⟩
  · simp only [other, if_false, true_and]
    split
    · rfl
    · rfl
  · intro q first second
    simp [first, second]
  · intro q
    dsimp only
    split
    · rfl
    · split
      · rfl
      · rfl
  · intro q
    dsimp only
    split
    · rfl
    · split
      · rfl
      · rfl

/-- Without a change of the counters the switch keeps them. -/
theorem switchTo_kept (current : s.current = some cur) (other : cur ≠ p) :
    SwitchedTo s (switchTo s (some p)) (fun q => (s.procs q).counter) cur p :=
  @switchTo_switchedTo H s cur p (fun q => (s.procs q).counter) current other

end Switch

section Calls

variable {cur : Addr}

/-- A waiting counter that is neither zero nor too large is picked at once. -/
theorem scheduleSjf_pick (current : s.current = some cur) (picked : sjfPick s ≠ 0) (fuel : Nat) :
    scheduleSjf (fuel + 1) s = some (switchTo s (s.task (sjfPick s))) := by
  rw [scheduleSjf, current]
  simp only [if_neg picked]

/-- Otherwise the slices of the waiting processes are refreshed once more. -/
theorem scheduleSjf_refresh (current : s.current = some cur) (nothing : sjfPick s = 0)
    (waiting : ∃ i p, Waiting s i p) (fuel : Nat) :
    scheduleSjf (fuel + 1) s = scheduleSjf fuel (refreshSlices s).2 := by
  rw [scheduleSjf, current]
  simp only [if_pos nothing, if_pos ((refreshSlices_pos s).mpr waiting)]

/-- When nobody waits, the call goes back to idle. -/
theorem scheduleSjf_nobody (current : s.current = some cur) (nobody : ∀ i p, ¬ Waiting s i p) (fuel : Nat) :
    scheduleSjf (fuel + 1) s = some (if (s.procs cur).pid ≠ 0 then switchTo s (s.task 0) else s) := by
  have nothing : sjfPick s = 0 := by
    rcases sjfPick_cases s with ⟨zero, _⟩ | ⟨p, _, shortest⟩
    · exact zero
    · exact absurd shortest.waiting (nobody _ p)
  have none : ¬ 0 < (refreshSlices s).1 := by
    rw [refreshSlices_pos]
    rintro ⟨i, p, waiting⟩
    exact nobody i p waiting
  rw [scheduleSjf, current]
  simp only [if_pos nothing, if_neg none]
  split <;> rfl

/-- A process that can be picked is one of the waiting, so the current process is another one. -/
theorem Shortest.ne_current {slice : Addr → Nat} {i : Fin 64} {p : Addr} (shortest : Shortest s slice i p)
    (busy : (s.procs cur).state ≠ .ready) : cur ≠ p := by
  rintro rfl
  exact busy shortest.waiting.2.2.2

/-- The pick and everything else that the call changes, after `slice` replaced the counters. -/
def PicksShortest (s : Kernel H) (slice : Addr → Nat) (cur : Addr) (calls : Nat) : Prop :=
  ∃ i p s', Shortest s slice i p ∧ (∀ fuel, scheduleSjf (fuel + calls) s = some s') ∧ SwitchedTo s s' slice cur p

theorem picksShortest_at_once (current : s.current = some cur) (busy : (s.procs cur).state ≠ .ready)
    {i : Fin 64} {p : Addr} (waiting : Waiting s i p) (positive : 0 < (s.procs p).counter)
    (bounded : (s.procs p).counter < 0xFFFFFFFF) : PicksShortest s (fun q => (s.procs q).counter) cur 1 := by
  rcases sjfPick_cases s with ⟨_, none⟩ | ⟨q, _, shortest⟩
  · have clash := none i p waiting
    omega
  · obtain ⟨past, _, entry, _⟩ := shortest.waiting
    refine ⟨_, q, _, shortest, fun fuel => scheduleSjf_pick current past fuel, ?_⟩
    rw [entry]
    exact switchTo_kept current (shortest.ne_current busy)

theorem picksShortest_after_refresh (current : s.current = some cur) (busy : (s.procs cur).state ≠ .ready)
    (spent : ∀ i p, Waiting s i p → (s.procs p).counter = 0 ∨ 0xFFFFFFFF ≤ (s.procs p).counter)
    {i : Fin 64} {p : Addr} (waiting : Waiting s i p) (entitled : (s.procs p).priority % 5 ≠ 0) :
    PicksShortest s (freshSlice s) cur 2 := by
  have nothing : sjfPick s = 0 := by
    rcases sjfPick_cases s with ⟨zero, _⟩ | ⟨q, small, shortest⟩
    · exact zero
    · have clash := spent _ q shortest.waiting
      have positive := shortest.positive
      omega
  have picked := sjfPick_refreshSlices waiting entitled
  have renewed := refreshSlices_eq s
  rcases sjfPick_cases (refreshSlices s).2 with ⟨zero, _⟩ | ⟨q, _, shortest⟩
  · exact absurd zero picked
  · have entry := shortest.waiting.2.2.1
    have found : Shortest s (freshSlice s) (sjfPick (refreshSlices s).2) q := by
      obtain ⟨first, positive, least, lowest⟩ := shortest
      have slice (a : Addr) : ((refreshSlices s).2.procs a).counter = freshSlice s a := by rw [renewed]
      simp only [waiting_refreshSlices, slice] at first positive least lowest
      exact ⟨first, positive, least, lowest⟩
    refine ⟨_, q, _, found, ?_, switchTo_switchedTo current (found.ne_current busy)⟩
    intro fuel
    rw [scheduleSjf_refresh current nothing ⟨i, p, waiting⟩,
      scheduleSjf_pick (by rw [renewed]; exact current) picked, entry, renewed]

/-- With counters below the start value of the scan, `schedule_sjf` runs the shortest ready job, by the counters
when one of them is not zero and by the refreshed slices otherwise. -/
theorem scheduleSjf_picksShortest
    (bounded : ∀ i p, s.task i = some p → (s.procs p).counter < 2 ^ 32 - 1) (current : s.current = some cur)
    (busy : (s.procs cur).state ≠ .ready) :
    ((∃ i p, Waiting s i p ∧ (s.procs p).counter ≠ 0) → PicksShortest s (fun q => (s.procs q).counter) cur 1) ∧
    ((∀ i p, Waiting s i p → (s.procs p).counter = 0) →
      (∃ i p, Waiting s i p ∧ 1 ≤ (s.procs p).priority % 5 ∧ (s.procs p).priority % 5 ≤ 4) →
        PicksShortest s (freshSlice s) cur 2) := by
  constructor
  · rintro ⟨i, p, waiting, positive⟩
    exact picksShortest_at_once current busy waiting (by omega) (bounded i p waiting.2.2.1)
  · rintro spent ⟨i, p, waiting, entitled, _⟩
    have none : ∀ j q, Waiting s j q → (s.procs q).counter = 0 ∨ 0xFFFFFFFF ≤ (s.procs q).counter := by
      intro j q other
      exact .inl (spent j q other)
    exact picksShortest_after_refresh current busy none waiting (by omega)

end Calls

/-- Two processes with the slices 3 and 2 wait, and later both have used them up. -/
theorem scheduleSjf_picksShortest_sample :
    (∃ m, Run (Disciplined sampleAllocator fun _ _ => true) sampleStart
        [.create (some 7) 0 2, .create (some 7) 0 3] m ∧
      PicksShortest m.kernel (fun q => (m.kernel.procs q).counter) 100 1) ∧
    ∃ m, Run (Disciplined sampleAllocator fun _ _ => true) sampleStart
        [.create (some 7) 0 4, .create (some 7) 0 4, .schedule, .doTimer, .doTimer] m ∧
      PicksShortest m.kernel (freshSlice m.kernel) 100 2 := by
  constructor
  · obtain ⟨m, run, checked⟩ := exists_run sampleAllocator (fun _ _ => true) 20 sampleStart
      [.create (some 7) 0 2, .create (some 7) 0 3]
      (fun m => decide ((∀ i, (m.kernel.task i).all fun p => (m.kernel.procs p).counter < 2 ^ 32 - 1) ∧
        m.kernel.current = some 100 ∧ (m.kernel.procs 100).state ≠ .ready ∧ Waiting m.kernel 1 103 ∧
        (m.kernel.procs 103).counter ≠ 0)) (by decide +kernel)
    obtain ⟨bounded, current, busy, waiting, positive⟩ := of_decide_eq_true checked
    exact ⟨m, run, (scheduleSjf_picksShortest (fun _ _ => of_all_tasks bounded) current busy).1
      ⟨1, 103, waiting, positive⟩⟩
  · obtain ⟨m, run, checked⟩ := exists_run sampleAllocator (fun _ _ => true) 20 sampleStart
      [.create (some 7) 0 4, .create (some 7) 0 4, .schedule, .doTimer, .doTimer]
      (fun m => decide ((∀ i, (m.kernel.task i).all fun p => (m.kernel.procs p).counter = 0) ∧
        m.kernel.current = some 100 ∧ (m.kernel.procs 100).state ≠ .ready ∧ Waiting m.kernel 1 103 ∧
        (m.kernel.procs 103).priority = 4)) (by decide +kernel)
    obtain ⟨spent, current, busy, waiting, priority⟩ := of_decide_eq_true checked
    have zero : ∀ i p, m.kernel.task i = some p → (m.kernel.procs p).counter = 0 := fun _ _ => of_all_tasks spent
    have below : ∀ i p, m.kernel.task i = some p → (m.kernel.procs p).counter < 2 ^ 32 - 1 := by
      intro i p entry
      rw [zero i p entry]
      norm_num
    have entitled : 1 ≤ (m.kernel.procs 103).priority % 5 ∧ (m.kernel.procs 103).priority % 5 ≤ 4 := by
      rw [priority]
      decide
    exact ⟨m, run, (scheduleSjf_picksShortest below current busy).2
      (fun i p other => zero i p other.2.2.1) ⟨1, 103, waiting, entitled⟩⟩

end OsKernel.Proc
