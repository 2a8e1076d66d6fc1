import Mathlib.Data.Prod.Lex
import OsKernel.Library.Rivals
import OsKernel.Process.SjfRuns

/-
This file follows calls of `schedule_sjf` that no timer tick separates.
-/

namespace OsKernel.Proc
open OsKernel.Library

variable {H : Type} {A : Allocator H} {base : Finset Addr} {s s' : Kernel H} {cur p q : Addr} {i j l : Fin 64}

/-- The slot past the first holds a process with a time slice left that is ready, or runs as the current one. -/
def Contends (s : Kernel H) (i : Fin 64) : Prop :=
  i ≠ 0 ∧ i.val < s.taskCount ∧ ∃ p, s.task i = some p ∧ 0 < (s.procs p).counter ∧
    ((s.procs p).state = .ready ∨ s.current = some p ∧ (s.procs p).state = .running)

/-- The time slice that the process of a slot has left. -/
def sliceAt (s : Kernel H) (i : Fin 64) : Nat := (s.task i).elim 0 fun p => (s.procs p).counter

/-- Shorter slices come first, and of equal ones the lower slot. -/
def sjfRank (s : Kernel H) (i : Fin 64) : Nat ×ₗ Fin 64 := toLex (sliceAt s i, i)

/-- The first slot has the shortest slice of a set of slots, at the lowest slot with this slice. -/
abbrev LeadsSjf (s : Kernel H) (slots : Set (Fin 64)) (i : Fin 64) : Prop :=
  Leads (fun x y => sjfRank s x < sjfRank s y) slots i

section Step

/-- A process that is not ready is the current one or it does not contend. -/
theorem Contends.waiting (contends : Contends s i) (entry : s.task i = some p) (current : s.current = some cur)
    (other : p ≠ cur) : Waiting s i p ∧ 0 < (s.procs p).counter := by
  obtain ⟨past, below, p', entry', positive, state⟩ := contends
  obtain rfl : p' = p := Option.some.inj (entry'.symm.trans entry)
  refine ⟨⟨past, below, entry, ?_⟩, positive⟩
  rcases state with ready | ⟨now, _⟩
  · exact ready
  · exact absurd (Option.some.inj (now.symm.trans current)) other

theorem Waiting.contends (waiting : Waiting s i p) (positive : 0 < (s.procs p).counter) : Contends s i := by
  obtain ⟨past, below, entry, ready⟩ := waiting
  exact ⟨past, below, p, entry, positive, .inl ready⟩

/-- The pick of `schedule_sjf` leads all that contend without the current process. -/
theorem Shortest.leads (table : TableOk s) (current : s.current = some cur) (busy : (s.procs cur).state ≠ .ready)
    (slot : s.task l = some cur) (shortest : Shortest s (fun q => (s.procs q).counter) i p) :
    LeadsSjf s ({j | Contends s j} \ {l}) i := by
  obtain ⟨_, _, entry, _⟩ := shortest.waiting
  have other : p ≠ cur := Ne.symm (shortest.ne_current busy)
  refine ⟨⟨shortest.waiting.contends shortest.positive, ?_⟩, ?_⟩
  · intro same
    rw [Set.mem_singleton_iff.mp same, slot] at entry
    exact other (Option.some.inj entry).symm
  · intro j member different
    obtain ⟨contends, away⟩ := member
    obtain ⟨_, _, q, listed, _⟩ := id contends
    have elsewhere : q ≠ cur := by
      intro same
      exact away (table.inj j l cur (same ▸ listed) slot)
    obtain ⟨waiting, positive⟩ := contends.waiting listed current elsewhere
    have slice : sliceAt s i = (s.procs p).counter := by rw [sliceAt, entry]; rfl
    have slice' : sliceAt s j = (s.procs q).counter := by rw [sliceAt, listed]; rfl
    show sjfRank s i < sjfRank s j
    rw [sjfRank, sjfRank, Prod.Lex.toLex_lt_toLex, slice, slice']
    rcases Nat.lt_or_eq_of_le (shortest.least j q waiting positive) with less | equal
    · exact .inl less
    · exact .inr ⟨equal, lt_of_le_of_ne (shortest.lowest j q waiting equal.symm) different.symm⟩

/-- A switch moves the two states and `current`, and the same slots contend. -/
theorem SwitchedTo.contends (switched : SwitchedTo s s' (fun q => (s.procs q).counter) cur p)
    (current : s.current = some cur) (busy : (s.procs cur).state ≠ .ready) (ready : (s.procs p).state = .ready) :
    Contends s' j ↔ Contends s j := by
  have tasks : s'.task = s.task := by rw [switched.rest]
  have count : s'.taskCount = s.taskCount := by rw [switched.rest]
  have other : cur ≠ p := by
    rintro rfl
    exact busy ready
  have eligible (q : Addr) : ((s'.procs q).state = .ready ∨ s'.current = some q ∧ (s'.procs q).state = .running) ↔
      ((s.procs q).state = .ready ∨ s.current = some q ∧ (s.procs q).state = .running) := by
    rw [switched.current, current, Option.some.injEq, Option.some.injEq]
    by_cases chosen : q = p
    · subst chosen
      simp [switched.running, ready]
    · by_cases left : q = cur
      · subst left
        rw [switched.previous]
        by_cases running : (s.procs q).state = .running
        · simp [running]
        · simp [running, busy, Ne.symm chosen]
      · rw [switched.others q left chosen]
        simp [Ne.symm chosen, Ne.symm left]
  rw [Contends, Contends, tasks, count]
  simp only [switched.counters, eligible]

/-- While somebody else contends, one call switches to the leader of the others, and the contest stays as it is. -/
theorem SjfInv.contest (inv : SjfInv A base s) (current : s.current = some cur) (busy : (s.procs cur).state ≠ .ready)
    (slot : s.task l = some cur) (rival : ∃ j, Contends s j ∧ j ≠ l) :
    ∃ i p s', s.task i = some p ∧ LeadsSjf s ({j | Contends s j} \ {l}) i ∧
      OsKernel.Proc.scheduleSjf 1 s = some s' ∧
      SwitchedTo s s' (fun q => (s.procs q).counter) cur p ∧ ∀ j, Contends s' j ↔ Contends s j := by
  obtain ⟨j, contends, away⟩ := rival
  obtain ⟨_, _, q, listed, _⟩ := id contends
  have elsewhere : q ≠ cur := by
    intro same
    exact away (inv.table.inj j l cur (same ▸ listed) slot)
  obtain ⟨waiting, positive⟩ := contends.waiting listed current elsewhere
  have paced := (inv.paced q ⟨j, listed⟩).2
  have bounded : (s.procs q).counter < 0xFFFFFFFF := by
    have slice := slice_le (s.procs q).priority
    rw [Nat.mod_eq_of_lt (inv.paced q ⟨j, listed⟩).1] at slice
    omega
  obtain ⟨i, p, s', shortest, returns, switched⟩ := picksShortest_at_once current busy waiting positive bounded
  obtain ⟨_, _, entry, ready⟩ := shortest.waiting
  exact ⟨i, p, s', entry, shortest.leads inv.table current busy slot, returns 0, switched,
    fun _ => switched.contends current busy ready⟩

end Step

/-- After some calls the contest is still the one of `s₀`, and `slot` holds the current process. -/
structure Contested (A : Allocator H) (base : Finset Addr) (s₀ s : Kernel H) (slot : Fin 64) : Prop where
  inv : SjfInv A base s
  task : s.task = s₀.task
  counter : ∀ x, (s.procs x).counter = (s₀.procs x).counter
  contends : ∀ j, Contends s j ↔ Contends s₀ j
  current : ∃ c, s.current = some c ∧ s.task slot = some c ∧ (s.procs c).state ≠ .ready

section Runs

variable {s₀ : Kernel H} {heap : H} {start m m' : Machine H} {ops calls : List Op} {a b : Fin 64}

theorem Contested.rank (contested : Contested A base s₀ s l) : sjfRank s = sjfRank s₀ := by
  funext i
  rw [sjfRank, sjfRank, sliceAt, sliceAt, contested.task]
  simp only [contested.counter]

/-- One more call passes the processor to the first of the rivals, or to the second after the first. -/
theorem Contested.call (contested : Contested A base s₀ s l)
    (rivals : Rivals (fun x y => sjfRank s₀ x < sjfRank s₀ y) {x | Contends s₀ x} a b) :
    ∃ s', scheduleSjf 1 s = some s' ∧ Contested A base s₀ s' (if l = a then b else a) := by
  obtain ⟨c, current, slot, busy⟩ := contested.current
  have same : {x | Contends s x} = {x | Contends s₀ x} := Set.ext contested.contends
  have rival : ∃ j, Contends s j ∧ j ≠ l := by
    by_cases first : a = l
    · exact ⟨b, (contested.contends b).mpr rivals.second.1.1, first ▸ rivals.ne⟩
    · exact ⟨a, (contested.contends a).mpr rivals.first.1, first⟩
  obtain ⟨i, p, s', entry, leads, returned, switched, contends⟩ := contested.inv.contest current busy slot rival
  have tasks : s'.task = s.task := by rw [switched.rest]
  have winner : i = if l = a then b else a := by
    rw [LeadsSjf, contested.rank, same] at leads
    exact rivals.next (fun _ _ less more => lt_asymm less more) leads
  refine ⟨s', returned, (contested.inv.scheduleSjf returned).1, tasks.trans contested.task, ?_, ?_, ?_⟩
  · intro x
    rw [switched.counters, contested.counter]
  · intro j
    rw [contends, contested.contends]
  · refine ⟨p, switched.current, ?_, ?_⟩
    · rw [← winner, tasks, entry]
    · rw [switched.running]
      exact nofun

/-- Along the calls the rivals take turns. -/
theorem Contested.run (contested : Contested A base s₀ m.kernel l)
    (rivals : Rivals (fun x y => sjfRank s₀ x < sjfRank s₀ y) {x | Contends s₀ x} a b)
    (run : Run (Disciplined A sjfAllow) m calls m') (only : ∀ op ∈ calls, op = .scheduleSjf) :
    ∃ slot, Contested A base s₀ m'.kernel slot ∧ (calls = [] → slot = l) ∧
      (calls ≠ [] → slot = if Odd calls.length ↔ l ≠ a then a else b) := by
  induction run with
  | nil => exact ⟨l, contested, fun _ => rfl, fun called => absurd rfl called⟩
  | @snoc calls m₁ m₂ op _ taken ih =>
      obtain ⟨slot, middle, stays, moves⟩ := ih fun op member => only op (List.mem_append_left _ member)
      obtain rfl : op = .scheduleSjf := only op (by simp)
      obtain ⟨_, _, fuel, ran⟩ := taken
      simp only [exec, Option.map_eq_some_iff] at ran
      obtain ⟨kernel, returned, rfl⟩ := ran
      obtain ⟨s', called, next⟩ := middle.call rivals
      have longer := scheduleSjf_mono returned (Nat.le_max_left fuel 1)
      have again := scheduleSjf_mono called (Nat.le_max_right fuel 1)
      obtain rfl : kernel = s' := Option.some.inj (longer.symm.trans again)
      refine ⟨_, next, by simp, ?_⟩
      intro _
      have turns : Odd (calls ++ [Op.scheduleSjf]).length ↔ ¬ Odd calls.length := by
        rw [List.length_append, List.length_singleton, Nat.odd_add_one]
      simp only [turns]
      by_cases empty : calls = []
      · rw [stays empty, empty]
        by_cases first : l = a <;> simp [first]
      · have different := rivals.ne
        rw [moves empty]
        by_cases odd : Odd calls.length <;> by_cases first : l = a <;> simp [odd, first, different]

end Runs

end OsKernel.Proc
