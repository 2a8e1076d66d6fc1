import Mathlib.Tactic

/-
This file gives devices behind input and output ports, and the rules for loops that poll them.
-/

namespace OsKernel.Library

/-- A device answers reads of its ports and takes writes, and may change at both. -/
structure Ports (D : Type*) where
  inb : Nat → D → UInt8 × D
  outb : Nat → UInt8 → D → D

/-- An access to a port, with the byte read or written. -/
inductive Access
  | inb (port : Nat) (byte : UInt8)
  | outb (port : Nat) (byte : UInt8)
  deriving DecidableEq

/-- The device and all accesses so far. -/
structure Bus (D : Type*) where
  device : D
  trace : List Access

variable {D : Type*} {P : Ports D} {b b' : Bus D} {port fuel more : Nat} {stop : UInt8 → Bool}

def Bus.inb (P : Ports D) (b : Bus D) (port : Nat) : UInt8 × Bus D :=
  ((P.inb port b.device).1, ⟨(P.inb port b.device).2, b.trace ++ [.inb port (P.inb port b.device).1]⟩)

def Bus.outb (P : Ports D) (b : Bus D) (port : Nat) (byte : UInt8) : Bus D :=
  ⟨P.outb port byte b.device, b.trace ++ [.outb port byte]⟩

/-- The loop reads a port until the byte passes the test. -/
def poll (P : Ports D) (port : Nat) (stop : UInt8 → Bool) : Nat → Bus D → Option (Bus D)
  | 0, _ => none
  | fuel + 1, b => if stop (b.inb P port).1 then some (b.inb P port).2 else poll P port stop fuel (b.inb P port).2

/-- The device passes the test at this read or at a later one. -/
inductive Reads (P : Ports D) (port : Nat) (stop : UInt8 → Bool) : D → Prop
  | now {d : D} (passed : stop (P.inb port d).1 = true) : Reads P port stop d
  | later {d : D} (rest : Reads P port stop (P.inb port d).2) : Reads P port stop d

/-- The accesses of a finished loop: reads that fail the test, and one that passes it. -/
def Polled (port : Nat) (stop : UInt8 → Bool) (added : List Access) : Prop :=
  ∃ (missed : List UInt8) (last : UInt8), added = missed.map (Access.inb port) ++ [.inb port last] ∧
    stop last = true ∧ ∀ byte ∈ missed, stop byte = false

theorem poll_polled (ended : poll P port stop fuel b = some b') :
    ∃ added, b'.trace = b.trace ++ added ∧ Polled port stop added := by
  induction fuel generalizing b with
  | zero => cases ended
  | succ fuel ih =>
      rw [poll] at ended
      split at ended
      next passed =>
          obtain rfl := Option.some.inj ended
          exact ⟨[.inb port (P.inb port b.device).1], rfl, [], _, rfl, passed, by simp⟩
      next failed =>
          obtain ⟨added, trace, missed, last, rfl, passed, others⟩ := ih ended
          refine ⟨.inb port (P.inb port b.device).1 :: (missed.map (Access.inb port) ++ [.inb port last]), ?_,
            (P.inb port b.device).1 :: missed, last, rfl, passed, ?_⟩
          · rw [trace, Bus.inb, List.append_assoc]
            rfl
          · intro byte member
            rcases List.mem_cons.mp member with rfl | later
            · exact Bool.eq_false_of_not_eq_true failed
            · exact others byte later

/-- More fuel never changes the result of a loop. -/
theorem poll_mono (ended : poll P port stop fuel b = some b') (enough : fuel ≤ more) :
    poll P port stop more b = some b' := by
  induction fuel generalizing b more with
  | zero => cases ended
  | succ fuel ih =>
      obtain ⟨rest, rfl⟩ : ∃ rest, more = rest + 1 := ⟨more - 1, by omega⟩
      rw [poll] at ended ⊢
      split at ended
      next passed => rwa [if_pos passed]
      next failed =>
          rw [if_neg failed]
          exact ih ended (by omega)

/-- A loop on a device that passes the test ends. -/
theorem Reads.poll (reads : Reads P port stop b.device) : ∃ fuel b', poll P port stop fuel b = some b' := by
  generalize same : b.device = d at reads
  induction reads generalizing b with
  | now passed =>
      subst same
      exact ⟨1, (b.inb P port).2, if_pos passed⟩
  | later _ ih =>
      subst same
      by_cases passed : stop (P.inb port b.device).1 = true
      · exact ⟨1, (b.inb P port).2, if_pos passed⟩
      · obtain ⟨fuel, b', ended⟩ := ih (b := (b.inb P port).2) rfl
        exact ⟨fuel + 1, b', (if_neg passed).trans ended⟩

section Projections

variable (added later : List Access)

/-- The writes among the accesses. -/
def written (trace : List Access) : List (Nat × UInt8) :=
  trace.filterMap fun
    | .outb port byte => some (port, byte)
    | .inb _ _ => none

/-- The bytes read from one port. -/
def readFrom (port : Nat) (trace : List Access) : List UInt8 :=
  trace.filterMap fun
    | .inb source byte => if source = port then some byte else none
    | .outb _ _ => none

@[simp] theorem written_append : written (added ++ later) = written added ++ written later :=
  List.filterMap_append

@[simp] theorem readFrom_append : readFrom port (added ++ later) = readFrom port added ++ readFrom port later :=
  List.filterMap_append

@[simp] theorem written_outb (byte : UInt8) : written [.outb port byte] = [(port, byte)] := rfl

@[simp] theorem written_inb (byte : UInt8) : written [.inb port byte] = [] := rfl

@[simp] theorem readFrom_outb (source : Nat) (byte : UInt8) : readFrom source [.outb port byte] = [] := rfl

theorem readFrom_inb (source : Nat) (byte : UInt8) :
    readFrom source [.inb port byte] = if port = source then [byte] else [] := by
  by_cases same : port = source <;> simp [readFrom, same]

end Projections

/-- Each access obeys the rule with the access before it. The first one obeys it with any access. -/
def Obeys (rule : Access → Access → Prop) (trace : List Access) : Prop :=
  trace.IsChain rule ∧ ∀ first ∈ trace.head?, ∀ earlier, rule earlier first

section Polled

variable {rule : Access → Access → Prop} {added later : List Access}

theorem Polled.written (polled : Polled port stop added) : written added = [] := by
  obtain ⟨missed, last, rfl, _, _⟩ := polled
  have none : Library.written (missed.map (Access.inb port)) = [] := by
    rw [Library.written, List.filterMap_eq_nil_iff]
    intro access member
    obtain ⟨_, _, rfl⟩ := List.mem_map.mp member
    rfl
  rw [written_append, none, written_inb]
  rfl

theorem Polled.readFrom (polled : Polled port stop added) {source : Nat} (other : port ≠ source) :
    readFrom source added = [] := by
  obtain ⟨missed, last, rfl, _, _⟩ := polled
  have none : Library.readFrom source (missed.map (Access.inb port)) = [] := by
    rw [Library.readFrom, List.filterMap_eq_nil_iff]
    intro access member
    obtain ⟨_, _, rfl⟩ := List.mem_map.mp member
    exact if_neg other
  rw [readFrom_append, none, readFrom_inb, if_neg other]
  rfl

/-- The loop ends with a read that passes the test. -/
theorem Polled.last (polled : Polled port stop added) :
    ∃ byte, added.getLast? = some (.inb port byte) ∧ stop byte = true := by
  obtain ⟨missed, last, rfl, passed, _⟩ := polled
  exact ⟨last, by simp, passed⟩

/-- Polling is always allowed when the rule allows every read of the port. -/
theorem Polled.obeys (polled : Polled port stop added) (free : ∀ earlier byte, rule earlier (.inb port byte)) :
    Obeys rule added := by
  obtain ⟨missed, last, rfl, _, _⟩ := polled
  have reads : ∀ access ∈ missed.map (Access.inb port) ++ [.inb port last], ∃ byte, access = .inb port byte := by
    intro access member
    rcases List.mem_append.mp member with early | final
    · obtain ⟨byte, _, rfl⟩ := List.mem_map.mp early
      exact ⟨byte, rfl⟩
    · exact ⟨last, List.mem_singleton.mp final⟩
  constructor
  · apply List.Pairwise.isChain
    apply List.pairwise_of_forall_mem_list
    intro earlier _ access member
    obtain ⟨byte, rfl⟩ := reads access member
    exact free earlier byte
  · intro first head earlier
    obtain ⟨byte, rfl⟩ := reads first (List.mem_of_mem_head? head)
    exact free earlier byte

/-- Two obedient traces compose. -/
theorem Obeys.append (first : Obeys rule added) (second : Obeys rule later) : Obeys rule (added ++ later) := by
  constructor
  · rw [List.isChain_append]
    exact ⟨first.1, second.1, fun x _ y head => second.2 y head x⟩
  · intro access head
    cases added with
    | nil => exact second.2 access head
    | cons a rest => exact first.2 access head

/-- The access behind a poll only needs the byte that ended the loop. -/
theorem Polled.then (polled : Polled port stop added) (free : ∀ earlier byte, rule earlier (.inb port byte))
    {access : Access} (allowed : ∀ byte, stop byte = true → rule (.inb port byte) access) :
    Obeys rule (added ++ [access]) := by
  have obeys := polled.obeys free
  obtain ⟨byte, last, passed⟩ := polled.last
  constructor
  · rw [List.isChain_append]
    refine ⟨obeys.1, List.isChain_singleton _, ?_⟩
    rintro x final y head
    rw [last] at final
    obtain rfl := Option.some.inj final
    obtain rfl := Option.some.inj head
    exact allowed byte passed
  · intro first head
    cases added with
    | nil => cases last
    | cons a rest => exact obeys.2 first head

end Polled

end OsKernel.Library
