import Mathlib.Data.Finset.Basic
import Mathlib.Data.List.Nodup
import Mathlib.Data.Set.Insert
import Mathlib.Tactic

/-
This file accounts for objects that each have exactly one owner.
-/

namespace OsKernel.Library

variable {α κ : Type*}

/-- Every live object outside the base belongs to exactly one key, and once to that key. -/
structure Partition (base : Finset α) (keys : Set κ) (owned : κ → List α) (live : Finset α) :
    Prop where
  nodup : ∀ k ∈ keys, (owned k).Nodup
  disjoint : ∀ k ∈ keys, ∀ l ∈ keys, k ≠ l → ∀ a ∈ owned k, a ∉ owned l
  outside : ∀ k ∈ keys, ∀ a ∈ owned k, a ∉ base
  exact : ∀ a, a ∈ live ↔ a ∈ base ∨ ∃ k ∈ keys, a ∈ owned k

variable {base live live' : Finset α} {keys : Set κ} {owned owned' : κ → List α}

theorem Partition.mem_live (partition : Partition base keys owned live) {k : κ} (key : k ∈ keys)
    {a : α} (member : a ∈ owned k) : a ∈ live :=
  (partition.exact a).mpr (Or.inr ⟨k, key, member⟩)

/-- Without keys only the base is live. -/
theorem Partition.empty (base : Finset α) (owned : κ → List α) : Partition base ∅ owned base where
  nodup _ key := absurd key (Set.notMem_empty _)
  disjoint _ key := absurd key (Set.notMem_empty _)
  outside _ key := absurd key (Set.notMem_empty _)
  exact a := by simp

/-- Only the objects of the keys matter. -/
theorem Partition.congr (partition : Partition base keys owned live)
    (same : ∀ k ∈ keys, owned' k = owned k) (lives : ∀ a, a ∈ live' ↔ a ∈ live) :
    Partition base keys owned' live' where
  nodup k key := by
    rw [same k key]
    exact partition.nodup k key
  disjoint k key l other different a member := by
    rw [same k key] at member
    rw [same l other]
    exact partition.disjoint k key l other different a member
  outside k key a member := partition.outside k key a (same k key ▸ member)
  exact a := by
    rw [lives, partition.exact]
    constructor
    · rintro (inBase | ⟨k, key, member⟩)
      · exact Or.inl inBase
      · exact Or.inr ⟨k, key, (same k key).symm ▸ member⟩
    · rintro (inBase | ⟨k, key, member⟩)
      · exact Or.inl inBase
      · exact Or.inr ⟨k, key, same k key ▸ member⟩

/-- The base may change where no key owns anything. -/
theorem Partition.rebase {base' : Finset α} (partition : Partition base keys owned live)
    (outside : ∀ k ∈ keys, ∀ a ∈ owned k, a ∉ base')
    (lives : ∀ a, a ∈ live' ↔ a ∈ base' ∨ ∃ k ∈ keys, a ∈ owned k) : Partition base' keys owned live' :=
  ⟨partition.nodup, partition.disjoint, outside, lives⟩

/-- A new key brings objects that were not live before. -/
theorem Partition.insert (partition : Partition base keys owned live) {k : κ} (fresh : k ∉ keys)
    (same : ∀ l ∈ keys, owned' l = owned l) (apart : (owned' k).Nodup)
    (dead : ∀ a ∈ owned' k, a ∉ live) (lives : ∀ a, a ∈ live' ↔ a ∈ live ∨ a ∈ owned' k) :
    Partition base (insert k keys) owned' live' where
  nodup l key := by
    rcases Set.mem_insert_iff.mp key with rfl | old
    · exact apart
    · rw [same l old]
      exact partition.nodup l old
  disjoint l key m other different a member := by
    rcases Set.mem_insert_iff.mp key with rfl | old
    · have second : m ∈ keys := (Set.mem_insert_iff.mp other).resolve_left different.symm
      rw [same m second]
      exact fun clash => dead a member (partition.mem_live second clash)
    · rw [same l old] at member
      rcases Set.mem_insert_iff.mp other with rfl | second
      · exact fun clash => dead a clash (partition.mem_live old member)
      · rw [same m second]
        exact partition.disjoint l old m second different a member
  outside l key a member := by
    rcases Set.mem_insert_iff.mp key with rfl | old
    · exact fun inBase => dead a member ((partition.exact a).mpr (Or.inl inBase))
    · exact partition.outside l old a (same l old ▸ member)
  exact a := by
    rw [lives, partition.exact]
    constructor
    · rintro ((inBase | ⟨l, key, member⟩) | new)
      · exact Or.inl inBase
      · exact Or.inr ⟨l, Set.mem_insert_of_mem k key, (same l key).symm ▸ member⟩
      · exact Or.inr ⟨k, Set.mem_insert k keys, new⟩
    · rintro (inBase | ⟨l, key, member⟩)
      · exact Or.inl (Or.inl inBase)
      · rcases Set.mem_insert_iff.mp key with rfl | old
        · exact Or.inr member
        · exact Or.inl (Or.inr ⟨l, old, same l old ▸ member⟩)

/-- A key gives up one object. -/
theorem Partition.release [DecidableEq α] (partition : Partition base keys owned live) {k : κ}
    (key : k ∈ keys) {a : α} (member : a ∈ owned k) (smaller : owned' k = (owned k).erase a)
    (same : ∀ l ∈ keys, l ≠ k → owned' l = owned l) :
    Partition base keys owned' (live.erase a) where
  nodup l other := by
    by_cases equal : l = k
    · rw [equal, smaller]
      exact (partition.nodup k key).erase a
    · rw [same l other equal]
      exact partition.nodup l other
  disjoint l first m second different b held := by
    have kept : ∀ n ∈ keys, b ∈ owned' n → b ∈ owned n := by
      intro n inKeys inOwned
      by_cases equal : n = k
      · rw [equal, smaller] at inOwned
        exact equal.symm ▸ List.mem_of_mem_erase inOwned
      · exact same n inKeys equal ▸ inOwned
    intro clash
    exact partition.disjoint l first m second different b (kept l first held) (kept m second clash)
  outside l other b held := by
    by_cases equal : l = k
    · rw [equal, smaller] at held
      exact partition.outside k key b (List.mem_of_mem_erase held)
    · exact partition.outside l other b (same l other equal ▸ held)
  exact b := by
    rw [Finset.mem_erase, partition.exact]
    constructor
    · rintro ⟨different, inBase | ⟨l, other, held⟩⟩
      · exact Or.inl inBase
      · by_cases equal : l = k
        · refine Or.inr ⟨k, key, ?_⟩
          rw [smaller, List.mem_erase_of_ne different]
          exact equal ▸ held
        · exact Or.inr ⟨l, other, (same l other equal).symm ▸ held⟩
    · rintro (inBase | ⟨l, other, held⟩)
      · refine ⟨?_, Or.inl inBase⟩
        intro equal
        exact partition.outside k key a member (equal ▸ inBase)
      · by_cases equal : l = k
        · rw [equal, smaller] at held
          refine ⟨?_, Or.inr ⟨k, key, List.mem_of_mem_erase held⟩⟩
          intro clash
          exact (List.Nodup.not_mem_erase (partition.nodup k key)) (clash ▸ held)
        · rw [same l other equal] at held
          refine ⟨?_, Or.inr ⟨l, other, held⟩⟩
          intro clash
          exact partition.disjoint l other k key equal b held (clash.symm ▸ member)

/-- A key leaves together with all its objects. -/
theorem Partition.remove (partition : Partition base keys owned live) {k : κ} (key : k ∈ keys)
    (same : ∀ l ∈ keys, l ≠ k → owned' l = owned l)
    (lives : ∀ a, a ∈ live' ↔ a ∈ live ∧ a ∉ owned k) :
    Partition base (keys \ {k}) owned' live' where
  nodup l remaining := by
    rw [same l remaining.1 remaining.2]
    exact partition.nodup l remaining.1
  disjoint l first m second different a member := by
    rw [same l first.1 first.2] at member
    rw [same m second.1 second.2]
    exact partition.disjoint l first.1 m second.1 different a member
  outside l remaining a member :=
    partition.outside l remaining.1 a (same l remaining.1 remaining.2 ▸ member)
  exact a := by
    rw [lives, partition.exact]
    constructor
    · rintro ⟨inBase | ⟨l, other, held⟩, notOwned⟩
      · exact Or.inl inBase
      · have different : l ≠ k := by
          intro equal
          exact notOwned (equal ▸ held)
        exact Or.inr ⟨l, ⟨other, different⟩, (same l other different).symm ▸ held⟩
    · rintro (inBase | ⟨l, remaining, held⟩)
      · exact ⟨Or.inl inBase, fun clash => partition.outside k key a clash inBase⟩
      · rw [same l remaining.1 remaining.2] at held
        exact ⟨Or.inr ⟨l, remaining.1, held⟩,
          partition.disjoint l remaining.1 k key remaining.2 a held⟩

end OsKernel.Library
