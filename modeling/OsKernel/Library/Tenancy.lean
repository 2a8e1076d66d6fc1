import Mathlib.Data.Set.Basic
import OsKernel.Library.Runs

/-
This file composes programs that share one store of objects.
Each program owns some of the live objects and leaves the others alone, and
that is all that the others need from it.
-/

namespace OsKernel.Library

/-- A tenant has a state of its own and works on the shared store `h`. -/
structure Tenant (S H L α : Type*) where
  step : S → H → L → S → H → Prop
  owned : S → Set α
  Ok : S → H → Prop

namespace Tenant

variable {S S₁ S₂ H L L₁ L₂ α : Type*}

/-- The tenant owns live objects only, its steps keep it in order and touch no foreign object,
and it needs nothing from the store but the life of its own objects. -/
structure Lawful (live : H → Set α) (t : Tenant S H L α) : Prop where
  alive : ∀ {s h}, t.Ok s h → t.owned s ⊆ live h
  keeps : ∀ {s h l s' h'}, t.Ok s h → t.step s h l s' h' → t.Ok s' h'
  frame : ∀ {s h l s' h'}, t.Ok s h → t.step s h l s' h' → live h' \ t.owned s' = live h \ t.owned s
  stable : ∀ {s h h'}, t.Ok s h → t.owned s ⊆ live h' → t.Ok s h'

/-- Two tenants take turns on one store. -/
def pair (t₁ : Tenant S₁ H L₁ α) (t₂ : Tenant S₂ H L₂ α) : Tenant (S₁ × S₂) H (L₁ ⊕ L₂) α where
  step s h l s' h' := match l with
    | .inl l => t₁.step s.1 h l s'.1 h' ∧ s'.2 = s.2
    | .inr l => t₂.step s.2 h l s'.2 h' ∧ s'.1 = s.1
  owned s := t₁.owned s.1 ∪ t₂.owned s.2
  Ok s h := t₁.Ok s.1 h ∧ t₂.Ok s.2 h ∧ ∀ a ∈ t₁.owned s.1, a ∉ t₂.owned s.2

variable {live : H → Set α} {t : Tenant S H L α} {t₁ : Tenant S₁ H L₁ α} {t₂ : Tenant S₂ H L₂ α}

/-- What another one owns stays live and stays foreign. -/
theorem Lawful.spares {s s' : S} {h h' : H} {l : L} (lawful : t.Lawful live) (ok : t.Ok s h)
    (taken : t.step s h l s' h') {others : Set α} (alive : others ⊆ live h) (apart : ∀ a ∈ t.owned s, a ∉ others) :
    others ⊆ live h' ∧ ∀ a ∈ t.owned s', a ∉ others := by
  have kept : others ⊆ live h' \ t.owned s' := by
    rw [lawful.frame ok taken]
    exact fun a member => ⟨alive member, fun own => apart a own member⟩
  exact ⟨fun a member => (kept member).1, fun a own member => (kept member).2 own⟩

/-- Two lawful tenants are one lawful tenant. -/
theorem Lawful.pair (first : t₁.Lawful live) (second : t₂.Lawful live) : (t₁.pair t₂).Lawful live where
  alive ok := Set.union_subset (first.alive ok.1) (second.alive ok.2.1)
  keeps := by
    rintro s h (l | l) s' h' ⟨ok₁, ok₂, apart⟩ ⟨taken, same⟩
    · obtain ⟨alive, still⟩ := first.spares ok₁ taken (second.alive ok₂) apart
      change t₁.Ok s'.1 h' ∧ t₂.Ok s'.2 h' ∧ ∀ a ∈ t₁.owned s'.1, a ∉ t₂.owned s'.2
      rw [same]
      exact ⟨first.keeps ok₁ taken, second.stable ok₂ alive, still⟩
    · obtain ⟨alive, still⟩ := second.spares ok₂ taken (first.alive ok₁)
        fun a own member => apart a member own
      change t₁.Ok s'.1 h' ∧ t₂.Ok s'.2 h' ∧ ∀ a ∈ t₁.owned s'.1, a ∉ t₂.owned s'.2
      rw [same]
      exact ⟨first.stable ok₁ alive, second.keeps ok₂ taken, fun a own member => still a member own⟩
  frame := by
    rintro s h (l | l) s' h' ⟨ok₁, ok₂, _⟩ ⟨taken, same⟩
    · change live h' \ (t₁.owned s'.1 ∪ t₂.owned s'.2) = live h \ (t₁.owned s.1 ∪ t₂.owned s.2)
      rw [same, ← Set.sdiff_sdiff, first.frame ok₁ taken, Set.sdiff_sdiff]
    · change live h' \ (t₁.owned s'.1 ∪ t₂.owned s'.2) = live h \ (t₁.owned s.1 ∪ t₂.owned s.2)
      rw [same, Set.union_comm, ← Set.sdiff_sdiff, second.frame ok₂ taken, Set.sdiff_sdiff, Set.union_comm]
  stable := by
    rintro s h h' ⟨ok₁, ok₂, apart⟩ alive
    exact ⟨first.stable ok₁ fun a own => alive (.inl own), second.stable ok₂ fun a own => alive (.inr own), apart⟩

/-- A step of a tenant with its store. -/
def Step (t : Tenant S H L α) (s : S × H) (l : L) (s' : S × H) : Prop := t.step s.1 s.2 l s'.1 s'.2

/-- A lawful tenant stays in order, and the live objects that it does not own are the same ones all the time. -/
theorem Lawful.run {start s : S × H} {labels : List L} (lawful : t.Lawful live) (ok : t.Ok start.1 start.2)
    (run : Run t.Step start labels s) :
    t.Ok s.1 s.2 ∧ live s.2 \ t.owned s.1 = live start.2 \ t.owned start.1 := by
  refine run.invariant (fun _ s => t.Ok s.1 s.2 ∧ live s.2 \ t.owned s.1 = live start.2 \ t.owned start.1)
    ⟨ok, rfl⟩ ?_
  rintro _ s label s' _ ⟨ok, same⟩ taken
  exact ⟨lawful.keeps ok taken, (lawful.frame ok taken).trans same⟩

end Tenant

end OsKernel.Library
