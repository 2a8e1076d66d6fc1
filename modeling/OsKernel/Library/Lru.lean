import Mathlib.Data.List.Nodup
import Mathlib.Tactic

/-
This file gives a least-recently-used cache with references, as a list of entries from the oldest get to the latest.
-/

namespace OsKernel.Library

/-- A resident key with its value and the number of references to it. -/
structure Entry (K V : Type*) where
  key : K
  value : V
  refs : Nat

/-- The entries are in the order of their last get, the oldest first. -/
structure Lru (K V : Type*) where
  entries : List (Entry K V)
  hits : Nat
  misses : Nat

variable {K V : Type*}

def Lru.empty : Lru K V := ⟨[], 0, 0⟩

/-- A hit renews its entry, and a miss adds the fresh value.
A full cache gives up its oldest entry without references, or refuses when every entry is referenced. -/
def Lru.get [DecidableEq K] (capacity : Nat) (l : Lru K V) (k : K) (fresh : V) : Option V × Lru K V :=
  match l.entries.find? fun e => e.key = k with
  | some e =>
      (some e.value, ⟨(l.entries.filter fun x => x.key ≠ k) ++ [{ e with refs := e.refs + 1 }], l.hits + 1, l.misses⟩)
  | none =>
      if l.entries.length < capacity then (some fresh, ⟨l.entries ++ [⟨k, fresh, 1⟩], l.hits, l.misses + 1⟩)
      else
        match l.entries.find? fun e => e.refs = 0 with
        | some old =>
            (some fresh, ⟨(l.entries.filter fun x => x.key ≠ old.key) ++ [⟨k, fresh, 1⟩], l.hits, l.misses + 1⟩)
        | none => (none, ⟨l.entries, l.hits, l.misses + 1⟩)

/-- A release gives one reference of a value back. -/
def Lru.release [DecidableEq V] (l : Lru K V) (v : V) : Lru K V :=
  { l with entries := l.entries.map fun e => if e.value = v then { e with refs := e.refs - 1 } else e }

section Presentation

variable {order : List V} {f : V → Entry K V} {capacity hits misses : Nat} {k : K} {fresh v : V}

/-- The keys of the listed values are different. -/
def KeysDistinct (f : V → Entry K V) (order : List V) : Prop :=
  ∀ a ∈ order, ∀ b ∈ order, (f a).key = (f b).key → a = b

/-- In a list sorted by time, the first entry without references is the oldest of them. -/
theorem find_idle_eq {time : V → Nat} (sorted : order.Pairwise fun a b => time a < time b) (member : v ∈ order)
    (idle : (f v).refs = 0) (oldest : ∀ a ∈ order, (f a).refs = 0 → time v ≤ time a) :
    ((order.map f).find? fun e => e.refs = 0) = some (f v) := by
  rw [List.find?_map]
  cases found : order.find? ((fun e => decide (e.refs = 0)) ∘ f) with
  | none =>
      have missed := List.find?_eq_none.mp found v member
      simp [idle] at missed
  | some a =>
      obtain ⟨passed, before, after, shape, earlier⟩ := List.find?_eq_some_iff_append.mp found
      have unused : (f a).refs = 0 := of_decide_eq_true passed
      have listed : a ∈ order := by simp [shape]
      have bound := oldest a listed unused
      rw [shape, List.mem_append, List.mem_cons] at member
      rcases member with front | rfl | behind
      · have skipped := earlier v front
        simp [idle] at skipped
      · rfl
      · rw [shape] at sorted
        have later := List.rel_of_pairwise_cons (List.pairwise_append.mp sorted).2.1 behind
        omega

section Keys

variable [DecidableEq K]

theorem find_key_eq (distinct : KeysDistinct f order) (member : v ∈ order) :
    ((order.map f).find? fun e => e.key = (f v).key) = some (f v) := by
  rw [List.find?_map]
  cases found : order.find? ((fun e => decide (e.key = (f v).key)) ∘ f) with
  | none =>
      have missed := List.find?_eq_none.mp found v member
      simp at missed
  | some a =>
      have passed : (f a).key = (f v).key := by simpa using List.find?_some found
      have same : a = v := distinct a (List.mem_of_find?_eq_some found) v member passed
      rw [same]
      rfl

theorem find_key_none (absent : ∀ a ∈ order, (f a).key ≠ k) : ((order.map f).find? fun e => e.key = k) = none := by
  rw [List.find?_eq_none]
  intro e member
  obtain ⟨a, listed, rfl⟩ := List.mem_map.mp member
  simpa using absent a listed

/-- A miss with room evicts nothing. -/
theorem Lru.get_room (absent : ∀ a ∈ order, (f a).key ≠ k) (room : order.length < capacity) :
    Lru.get capacity ⟨order.map f, hits, misses⟩ k fresh =
      (some fresh, ⟨order.map f ++ [⟨k, fresh, 1⟩], hits, misses + 1⟩) := by
  rw [Lru.get, find_key_none absent]
  simp only [List.length_map]
  rw [if_pos room]

/-- A miss in a full cache whose entries are all referenced is refused. -/
theorem Lru.get_refused (absent : ∀ a ∈ order, (f a).key ≠ k) (full : capacity ≤ order.length)
    (referenced : ∀ a ∈ order, (f a).refs ≠ 0) :
    Lru.get capacity ⟨order.map f, hits, misses⟩ k fresh = (none, ⟨order.map f, hits, misses + 1⟩) := by
  have none : ((order.map f).find? fun e => e.refs = 0) = none := by
    rw [List.find?_eq_none]
    intro e member
    obtain ⟨a, listed, rfl⟩ := List.mem_map.mp member
    simpa using referenced a listed
  rw [Lru.get, find_key_none absent]
  simp only [List.length_map]
  rw [if_neg (Nat.not_lt.mpr full), none]

section Values

variable [DecidableEq V]

/-- All entries but those of one key are all values but one. -/
theorem filter_key_eq (nodup : order.Nodup) (distinct : KeysDistinct f order) (member : v ∈ order) :
    ((order.map f).filter fun x => x.key ≠ (f v).key) = (order.erase v).map f := by
  rw [List.filter_map, nodup.erase_eq_filter]
  congr 1
  apply List.filter_congr
  intro a listed
  simp only [Function.comp_apply, ne_eq, decide_not, bne, Bool.not_eq_eq_eq_not, Bool.not_not]
  by_cases same : a = v
  · simp [same]
  · have different : (f a).key ≠ (f v).key := fun equal => same (distinct a listed v member equal)
    simp [same, different]

/-- A get of a resident key moves it to the end. -/
theorem Lru.get_hit (nodup : order.Nodup) (distinct : KeysDistinct f order) (member : v ∈ order) :
    Lru.get capacity ⟨order.map f, hits, misses⟩ (f v).key fresh =
      (some (f v).value, ⟨(order.erase v).map f ++ [{ f v with refs := (f v).refs + 1 }], hits + 1, misses⟩) := by
  rw [Lru.get, find_key_eq distinct member]
  simp only
  rw [filter_key_eq nodup distinct member]

/-- A miss in a full cache evicts exactly the oldest entry without references. -/
theorem Lru.get_evict {time : V → Nat} (nodup : order.Nodup) (distinct : KeysDistinct f order)
    (absent : ∀ a ∈ order, (f a).key ≠ k) (full : capacity ≤ order.length)
    (sorted : order.Pairwise fun a b => time a < time b) (member : v ∈ order) (idle : (f v).refs = 0)
    (oldest : ∀ a ∈ order, (f a).refs = 0 → time v ≤ time a) :
    Lru.get capacity ⟨order.map f, hits, misses⟩ k fresh =
      (some fresh, ⟨(order.erase v).map f ++ [⟨k, fresh, 1⟩], hits, misses + 1⟩) := by
  rw [Lru.get, find_key_none absent]
  simp only [List.length_map]
  rw [if_neg (Nat.not_lt.mpr full), find_idle_eq sorted member idle oldest]
  simp only
  rw [filter_key_eq nodup distinct member]

end Values

end Keys

end Presentation

end OsKernel.Library
