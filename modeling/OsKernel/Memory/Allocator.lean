import Mathlib.Data.Finset.Basic
import Mathlib.Data.Finset.Insert
import Mathlib.Tactic

/-
This file states what the process subsystem expects of `kmalloc` and `kfree`.
Each allocator of the kernel is one value of the structure below.
-/

namespace OsKernel

/-- An address names a kernel object, and a nullable pointer is an `Option Addr`. -/
abbrev Addr := Nat

/-- An allocator never returns a live pointer, and a free ends exactly one life. -/
structure Allocator (H : Type) where
  kmalloc : H → Nat → Option Addr × H
  kfree : H → Addr → H
  live : H → Finset Addr
  kmalloc_some : ∀ {h : H} {size : Nat} {p : Addr} {h' : H},
    kmalloc h size = (some p, h') → p ∉ live h ∧ live h' = insert p (live h)
  kmalloc_none : ∀ {h : H} {size : Nat} {h' : H},
    kmalloc h size = (none, h') → live h' = live h
  kfree_live : ∀ {h : H} {p : Addr}, p ∈ live h → live (kfree h p) = (live h).erase p

section Requests

variable {H : Type}

/-- All requests of the list are served, one after the other. -/
def allocates (A : Allocator H) : H → List Nat → Bool
  | _, [] => true
  | heap, size :: rest => (A.kmalloc heap size).1.isSome && allocates A (A.kmalloc heap size).2 rest

/-- A property of a heap and the objects got from it, the latest first.
Requests of the given sizes keep it, and so do frees in the reverse order. -/
structure Unwinding (A : Allocator H) (sizes : List Nat) (holds : List Addr → H → Prop) : Prop where
  issue : ∀ {got : List Addr} {h h' : H} {size : Nat} {a : Addr}, size ∈ sizes → holds got h →
    A.kmalloc h size = (some a, h') → holds (a :: got) h'
  refuse : ∀ {got : List Addr} {h h' : H} {size : Nat}, size ∈ sizes → holds got h →
    A.kmalloc h size = (none, h') → holds got h'
  free : ∀ {got : List Addr} {h : H} {a : Addr}, holds (a :: got) h → holds got (A.kfree h a)

end Requests

/-- The tape records the live pointers and counts the requests served so far. -/
structure Tape where
  live : Finset Addr
  clock : Nat
  deriving DecidableEq

/-- The script answers each request by its number, and an address that is live is refused. -/
def Tape.kmalloc (script : Nat → Option Addr) (t : Tape) (_size : Nat) : Option Addr × Tape :=
  match script t.clock with
  | none => (none, { t with clock := t.clock + 1 })
  | some p =>
      if p ∈ t.live then (none, { t with clock := t.clock + 1 })
      else (some p, ⟨insert p t.live, t.clock + 1⟩)

/-- A free removes the pointer from the record. -/
def Tape.kfree (t : Tape) (p : Addr) : Tape := { t with live := t.live.erase p }

/-- Every script of answers and failures gives one allocator. -/
def tapeAllocator (script : Nat → Option Addr) : Allocator Tape where
  kmalloc := Tape.kmalloc script
  kfree := Tape.kfree
  live := Tape.live
  kmalloc_some := by
    intro h size p h' issued
    unfold Tape.kmalloc at issued
    split at issued
    · simp at issued
    · rename_i q _
      by_cases held : q ∈ h.live
      · simp [held] at issued
      · simp only [held, if_false, Prod.mk.injEq, Option.some.injEq] at issued
        obtain ⟨rfl, rfl⟩ := issued
        exact ⟨held, rfl⟩
  kmalloc_none := by
    intro h size h' refused
    unfold Tape.kmalloc at refused
    split at refused
    · simp only [Prod.mk.injEq, true_and] at refused
      rw [← refused]
    · rename_i q _
      by_cases held : q ∈ h.live
      · simp only [held, if_true, Prod.mk.injEq, true_and] at refused
        rw [← refused]
      · simp [held] at refused
  kfree_live := by
    intro h p _
    rfl

end OsKernel
