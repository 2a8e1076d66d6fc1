import Mathlib.Data.List.Nodup
import Mathlib.Logic.Function.Basic
import Mathlib.Tactic

/-
This file relates null-terminated chains of links to lists.
A queue is a chain together with a pointer to its last node.
-/

namespace OsKernel.Library

variable {α : Type*}

/-- The links lead from `start` through exactly the listed nodes and end in null. -/
def Chain (next : α → Option α) : Option α → List α → Prop
  | start, [] => start = none
  | start, node :: rest => start = some node ∧ Chain next (next node) rest

@[simp] theorem chain_nil {next : α → Option α} {start : Option α} :
    Chain next start [] ↔ start = none := Iff.rfl

@[simp] theorem chain_cons {next : α → Option α} {start : Option α} {node : α} {rest : List α} :
    Chain next start (node :: rest) ↔ start = some node ∧ Chain next (next node) rest := Iff.rfl

/-- Only the links of the listed nodes matter. -/
theorem Chain.congr {next other : α → Option α} {start : Option α} {nodes : List α}
    (chain : Chain next start nodes) (same : ∀ node ∈ nodes, other node = next node) :
    Chain other start nodes := by
  induction nodes generalizing start with
  | nil => exact chain
  | cons node rest ih =>
      refine ⟨chain.1, ?_⟩
      rw [same node (by simp)]
      exact ih chain.2 fun later member => same later (by simp [member])

/-- A start has at most one chain. -/
theorem Chain.unique {next : α → Option α} {start : Option α} {first second : List α}
    (left : Chain next start first) (right : Chain next start second) : first = second := by
  induction first generalizing start second with
  | nil =>
      cases second with
      | nil => rfl
      | cons node rest =>
          have empty : start = none := left
          simp [empty] at right
  | cons node rest ih =>
      cases second with
      | nil =>
          have empty : start = none := right
          simp [empty] at left
      | cons other tail =>
          have same : node = other := Option.some.inj (left.1.symm.trans right.1)
          subst same
          rw [ih left.2 right.2]

/-- The tail of a chain starts at the link of the node before it. -/
theorem Chain.suffix {next : α → Option α} {start : Option α} {before rest : List α} {node : α}
    (chain : Chain next start (before ++ node :: rest)) : Chain next (next node) rest := by
  induction before generalizing start with
  | nil => exact chain.2
  | cons _ _ ih => exact ih chain.2

/-- A chain follows the links of its nodes to its end. -/
theorem Chain.next_mem {next : α → Option α} {start : Option α} {nodes : List α} {node other : α}
    (chain : Chain next start nodes) (member : node ∈ nodes) (linked : next node = some other) : other ∈ nodes := by
  obtain ⟨before, rest, rfl⟩ := List.append_of_mem member
  have suffix := chain.suffix
  cases rest with
  | nil => cases suffix.symm.trans linked
  | cons first others =>
      obtain rfl : first = other := Option.some.inj (suffix.1.symm.trans linked)
      simp

/-- Redirecting one link replaces everything behind its node. -/
theorem Chain.redirect [DecidableEq α] {next : α → Option α} {start target : Option α}
    {before rest after : List α} {node : α}
    (chain : Chain next start (before ++ node :: rest))
    (fresh : node ∉ before) (later : Chain (Function.update next node target) target after) :
    Chain (Function.update next node target) start (before ++ node :: after) := by
  induction before generalizing start with
  | nil => exact ⟨chain.1, by simpa using later⟩
  | cons first others ih =>
      have different : first ≠ node := by
        intro same
        exact fresh (by simp [same])
      refine ⟨chain.1, ?_⟩
      rw [Function.update_of_ne different]
      exact ih chain.2 fun member => fresh (by simp [member])

/-- A queue is a chain without repetition whose tail pointer names the last node. -/
structure Queue (next : α → Option α) (head tail : Option α) (nodes : List α) : Prop where
  chain : Chain next head nodes
  last : tail = nodes.getLast?
  nodup : nodes.Nodup

theorem Queue.head_eq {next : α → Option α} {head tail : Option α} {nodes : List α}
    (queue : Queue next head tail nodes) : head = nodes.head? := by
  cases nodes with
  | nil => exact queue.chain
  | cons node rest => exact queue.chain.1

/-- Only the links of the queued nodes matter. -/
theorem Queue.congr {next other : α → Option α} {head tail : Option α} {nodes : List α}
    (queue : Queue next head tail nodes) (same : ∀ node ∈ nodes, other node = next node) :
    Queue other head tail nodes :=
  ⟨queue.chain.congr same, queue.last, queue.nodup⟩

/-- The empty queue has two null ends. -/
theorem Queue.empty (next : α → Option α) : Queue next none none [] := ⟨rfl, rfl, by simp⟩

/-- A node with a null link is a queue of its own. -/
theorem Queue.single {next : α → Option α} {node : α} (ends : next node = none) :
    Queue next (some node) (some node) [node] := ⟨⟨rfl, ends⟩, rfl, by simp⟩

/-- Linking a fresh node behind the last one appends it. -/
theorem Queue.enqueue [DecidableEq α] {next : α → Option α} {head : Option α} {last node : α}
    {nodes : List α} (queue : Queue next head (some last) nodes) (fresh : node ∉ nodes) :
    Queue (Function.update (Function.update next node none) last (some node)) head (some node)
      (nodes ++ [node]) := by
  obtain ⟨before, rfl⟩ : ∃ before, nodes = before ++ [last] := by
    obtain ⟨before, same⟩ := List.getLast?_eq_some_iff.mp queue.last.symm
    exact ⟨before, same⟩
  have different : node ≠ last := by
    intro same
    exact fresh (by simp [same])
  have unlinked : Chain (Function.update next node none) head (before ++ [last]) :=
    queue.chain.congr fun other member => Function.update_of_ne (by
      intro same
      exact fresh (same ▸ member)) _ _
  have outside : last ∉ before := by
    intro member
    obtain ⟨_, _, disjoint⟩ := List.nodup_append.mp queue.nodup
    exact disjoint last member last (by simp) rfl
  refine ⟨?_, by simp, ?_⟩
  · rw [List.append_assoc]
    apply unlinked.redirect outside
    simp [Function.update_of_ne different]
  · have apart := queue.nodup
    rw [List.nodup_append]
    refine ⟨apart, by simp, ?_⟩
    intro other member same equal
    simp only [List.mem_singleton] at equal
    subst equal
    intro clash
    exact fresh (clash ▸ member)

/-- Advancing the head drops the first node. -/
theorem Queue.dequeue [DecidableEq α] {next : α → Option α} {head tail : Option α} {node : α}
    {rest : List α} (queue : Queue next head tail (node :: rest)) :
    Queue next (next node) (if next node = none then none else tail) rest := by
  have remaining : Chain next (next node) rest := queue.chain.2
  refine ⟨remaining, ?_, (List.nodup_cons.mp queue.nodup).2⟩
  cases rest with
  | nil =>
      have ends : next node = none := remaining
      simp [ends]
  | cons later others =>
      have continues : next node = some later := remaining.1
      simp [continues, queue.last]

/-- Redirecting the link of the predecessor drops a later node. -/
theorem Queue.unlink [DecidableEq α] {next : α → Option α} {head tail : Option α}
    {before rest : List α} {cur node : α}
    (queue : Queue next head tail (before ++ cur :: node :: rest)) :
    Queue (Function.update next cur (next node)) head
      (if tail = some node then some cur else tail) (before ++ cur :: rest) := by
  obtain ⟨_, suffix, disjoint⟩ := List.nodup_append.mp queue.nodup
  have outside : cur ∉ before := fun member => disjoint cur member cur (by simp) rfl
  have behind : cur ∉ rest := fun member => (List.nodup_cons.mp suffix).1 (by simp [member])
  have nodeBehind : node ∉ rest :=
    (List.nodup_cons.mp (List.nodup_cons.mp suffix).2).1
  refine ⟨?_, ?_, ?_⟩
  · apply queue.chain.redirect outside
    have remaining : Chain next (next node) rest := queue.chain.suffix.2
    exact remaining.congr fun other member => Function.update_of_ne (by
      intro same
      exact behind (same ▸ member)) _ _
  · rw [queue.last]
    cases rest with
    | nil => simp
    | cons later others =>
        have different : (before ++ cur :: node :: later :: others).getLast? ≠ some node := by
          intro same
          have member : node ∈ later :: others := by
            have shifted : (later :: others).getLast? = some node := by simpa using same
            exact List.mem_of_getLast? shifted
          exact nodeBehind member
        rw [if_neg different]
        simp
  · have shorter : (before ++ cur :: rest).Sublist (before ++ cur :: node :: rest) := by
      apply List.Sublist.append_left
      exact List.Sublist.cons_cons cur (List.sublist_cons_self node rest)
    exact queue.nodup.sublist shorter

end OsKernel.Library
