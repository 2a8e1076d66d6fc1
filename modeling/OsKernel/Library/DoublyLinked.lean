import Mathlib.Tactic

/-
This file relates doubly linked lists to the lists of their nodes.
A null end is any value that the caller picks for it.
-/

namespace OsKernel.Library

variable {α : Type*} {next prev next' prev' : α → α}

/-- The links of the listed nodes lead from `before` to `after` and back. -/
def Linked (next prev : α → α) : α → List α → α → Prop
  | _, [], _ => True
  | before, node :: rest, after =>
      prev node = before ∧ next node = rest.head?.getD after ∧ Linked next prev node rest after

@[simp] theorem linked_nil {before after : α} : Linked next prev before [] after := trivial

@[simp] theorem linked_cons {before node after : α} {rest : List α} :
    Linked next prev before (node :: rest) after ↔
      prev node = before ∧ next node = rest.head?.getD after ∧ Linked next prev node rest after :=
  Iff.rfl

/-- A list splits at any point, and the parts meet in the nodes beside the cut. -/
theorem linked_append {before after : α} {left right : List α} :
    Linked next prev before (left ++ right) after ↔
      Linked next prev before left (right.head?.getD after) ∧
        Linked next prev (left.getLast?.getD before) right after := by
  induction left generalizing before with
  | nil => simp
  | cons node rest ih =>
      have ends : (node :: rest).getLast?.getD before = rest.getLast?.getD node := by
        cases rest with
        | nil => rfl
        | cons later others => simp [List.getLast?_cons]
      have heads : (rest ++ right).head?.getD after = rest.head?.getD (right.head?.getD after) := by
        cases rest <;> rfl
      rw [List.cons_append, linked_cons, linked_cons, ih, ends, heads, and_assoc, and_assoc]

/-- Only the links of the listed nodes matter. -/
theorem Linked.congr {before after : α} {nodes : List α} (links : Linked next prev before nodes after)
    (forward : ∀ node ∈ nodes, next' node = next node)
    (backward : ∀ node ∈ nodes, prev' node = prev node) : Linked next' prev' before nodes after := by
  induction nodes generalizing before with
  | nil => trivial
  | cons node rest ih =>
      obtain ⟨back, ahead, later⟩ := links
      refine ⟨(backward node (by simp)).trans back, (forward node (by simp)).trans ahead, ?_⟩
      apply ih later
      · exact fun other member => forward other (by simp [member])
      · exact fun other member => backward other (by simp [member])

/-- The back link of the first node decides what stands before the list. -/
theorem Linked.rehead {before before' after : α} {nodes : List α}
    (links : Linked next prev before nodes after)
    (forward : ∀ node ∈ nodes, next' node = next node)
    (backward : ∀ node ∈ nodes.tail, prev' node = prev node)
    (first : ∀ node, nodes.head? = some node → prev' node = before') :
    Linked next' prev' before' nodes after := by
  cases nodes with
  | nil => trivial
  | cons node rest =>
      obtain ⟨_, ahead, later⟩ := links
      refine ⟨first node rfl, (forward node (by simp)).trans ahead, ?_⟩
      exact later.congr (fun other member => forward other (by simp [member])) backward

/-- The link back from the next node leads to the node again. -/
theorem Linked.prev_next {before after node : α} {nodes : List α}
    (links : Linked next prev before nodes after) (member : node ∈ nodes) :
    next node = after ∨ (next node ∈ nodes ∧ prev (next node) = node) := by
  obtain ⟨left, right, rfl⟩ := List.append_of_mem member
  obtain ⟨_, _, ahead, later⟩ := linked_append.mp links
  cases right with
  | nil => exact .inl ahead
  | cons other rest =>
      have named : next node = other := ahead
      rw [named]
      exact .inr ⟨by simp, later.1⟩

/-- The link from the previous node leads to the node again. -/
theorem Linked.next_prev {before after node : α} {nodes : List α}
    (links : Linked next prev before nodes after) (member : node ∈ nodes) :
    prev node = before ∨ (prev node ∈ nodes ∧ next (prev node) = node) := by
  obtain ⟨left, right, rfl⟩ := List.append_of_mem member
  obtain ⟨prior, back, _, _⟩ := linked_append.mp links
  cases left using List.reverseRecOn with
  | nil => exact .inl back
  | append_singleton front other _ =>
      have named : prev node = other := by simpa using back
      have ahead : next other = node := (linked_append.mp prior).2.2.1
      rw [named]
      exact .inr ⟨by simp, ahead⟩

section Splice

variable {before after node new : α} {left right : List α}

/-- Linking a new node behind a listed one inserts it there. -/
theorem Linked.insertAfter (links : Linked next prev before (left ++ node :: right) after)
    (leftNext : ∀ x ∈ left, next' x = next x) (leftPrev : ∀ x ∈ left, prev' x = prev x)
    (nodeNext : next' node = new) (nodePrev : prev' node = prev node)
    (newNext : next' new = next node) (newPrev : prev' new = node)
    (rightNext : ∀ x ∈ right, next' x = next x) (rightPrev : ∀ x ∈ right.tail, prev' x = prev x)
    (rightHead : ∀ x, right.head? = some x → prev' x = new) :
    Linked next' prev' before (left ++ node :: new :: right) after := by
  obtain ⟨prior, back, ahead, later⟩ := linked_append.mp links
  rw [linked_append]
  refine ⟨prior.congr leftNext leftPrev, nodePrev.trans back, nodeNext, newPrev, newNext.trans ahead, ?_⟩
  exact later.rehead rightNext rightPrev rightHead

/-- Linking past the node behind a listed one removes it. -/
theorem Linked.removeAfter (links : Linked next prev before (left ++ node :: new :: right) after)
    (leftNext : ∀ x ∈ left, next' x = next x) (leftPrev : ∀ x ∈ left, prev' x = prev x)
    (nodeNext : next' node = next new) (nodePrev : prev' node = prev node)
    (rightNext : ∀ x ∈ right, next' x = next x) (rightPrev : ∀ x ∈ right.tail, prev' x = prev x)
    (rightHead : ∀ x, right.head? = some x → prev' x = node) :
    Linked next' prev' before (left ++ node :: right) after := by
  obtain ⟨prior, back, _, _, ahead, later⟩ := linked_append.mp links
  rw [linked_append]
  refine ⟨prior.congr leftNext leftPrev, nodePrev.trans back, nodeNext.trans ahead, ?_⟩
  exact later.rehead rightNext rightPrev rightHead

end Splice

end OsKernel.Library
