import OsKernel.Library.Bytes
import OsKernel.Library.Loops
import OsKernel.Library.Ports

/-
This file models `interrupt.c`: the gates of the interrupt table in memory, and the two interrupt controllers behind
their ports. The processor and the controllers read back what was written.
-/

namespace OsKernel.Idt
open Library

def idtSize : Nat := 256

/-- `idt_entry_t` is packed. -/
def entryBytes : Nat := 8

/-- `memset` writes a byte `n` times from an address on. -/
def memset (m : Bytes) (s : Nat) (c : UInt8) : Nat → Bytes
  | 0 => m
  | n + 1 => memset (Function.update m s c) (s + 1) c n

/-- `register_interrupt_handler` fills the five fields of an entry. An entry behind the table fails. -/
def registerInterruptHandler (idt : Bytes) (num handler : Nat) : Option Bytes :=
  if num < idtSize then
    let base := handler % 2 ^ 32
    let idt := store idt (num * entryBytes) 2 (base % 2 ^ 16)
    let idt := store idt (num * entryBytes + 2) 2 0x08
    let idt := store idt (num * entryBytes + 4) 1 0
    let idt := store idt (num * entryBytes + 5) 1 0x8E
    some (store idt (num * entryBytes + 6) 2 (base / 2 ^ 16 % 2 ^ 16))
  else none

def initExceptions (idt : Bytes) (exceptionHandler : Nat) : Option Bytes :=
  forLoop (fun i idt => registerInterruptHandler idt i exceptionHandler) 0 32 idt

/-- The writes of `pic_remap`. -/
def remapWrites : List (Nat × UInt8) :=
  [(0x20, 0x11), (0xA0, 0x11), (0x21, 0x20), (0xA1, 0x28), (0x21, 0x04), (0xA1, 0x02), (0x21, 0x01), (0xA1, 0x01),
    (0x21, 0x00), (0xA1, 0x00)]

variable {D : Type}

def outAll (P : Ports D) (b : Bus D) (writes : List (Nat × UInt8)) : Bus D :=
  writes.foldl (fun b w => b.outb P w.1 w.2) b

def picRemap (P : Ports D) (b : Bus D) : Bus D := outAll P b remapWrites

/-- The register that `lidt` loads: the last byte of the table, and its address. -/
structure Idtr where
  limit : Nat
  base : Nat
  deriving DecidableEq

/-- `idtp` is packed: the limit and then the base. -/
def fillIdtp (idtp : Bytes) (idt : Nat) : Bytes :=
  store (store idtp 0 2 (entryBytes * idtSize - 1)) 2 4 (idt % 2 ^ 32)

/-- `idt_load` reads the six bytes of its operand. -/
def idtLoad (idtp : Bytes) : Idtr := ⟨load idtp 0 2, load idtp 2 4⟩

/-- The two variables of `interrupt.c`, the register of the processor, and the ports. -/
structure Interrupts (D : Type) where
  idt : Bytes
  idtp : Bytes
  idtr : Idtr
  bus : Bus D

/-- `init_interrupts` up to its message. The table is at the address `idt`. -/
def initInterrupts (P : Ports D) (idt exceptionHandler : Nat) (s : Interrupts D) : Option (Interrupts D) := do
  let idtp := fillIdtp s.idtp idt
  let table ← initExceptions (memset s.idt 0 0 (entryBytes * idtSize)) exceptionHandler
  let bus := (((picRemap P s.bus).outb P 0x21 0xFD).outb P 0xA1 0xFF)
  return ⟨table, idtp, idtLoad idtp, bus⟩

/-- What the processor reads from an entry. -/
structure Gate where
  offset : Nat
  selector : Nat
  always0 : Nat
  flags : Nat
  deriving DecidableEq

/-- The processor puts the two halves of the offset together. -/
def gate (idt : Bytes) (v : Nat) : Gate :=
  ⟨load idt (v * entryBytes) 2 + 2 ^ 16 * load idt (v * entryBytes + 6) 2, load idt (v * entryBytes + 2) 2,
    load idt (v * entryBytes + 4) 1, load idt (v * entryBytes + 5) 1⟩

/-- A gate of a handler: a present interrupt gate of the code segment. -/
def Gate.to (handler : Nat) : Gate := ⟨handler % 2 ^ 32, 0x08, 0, 0x8E⟩

/-- A gate that is not present. -/
def Gate.absent : Gate := ⟨0, 0, 0, 0⟩

/-- The table as a map from vectors to handlers. -/
def Table (idt : Bytes) (handlers : Nat → Option Nat) : Prop :=
  ∀ v, v < idtSize → gate idt v = (handlers v).elim .absent .to

section Gates

variable {idt idt' : Bytes} {num handler v : Nat} {handlers : Nat → Option Nat}

/-- The address survives its split into two halves. -/
theorem gate_registered (registered : registerInterruptHandler idt num handler = some idt') :
    gate idt' num = .to handler := by
  rw [registerInterruptHandler] at registered
  split at registered
  next =>
      obtain rfl := Option.some.inj registered
      have halves : handler % 2 ^ 32 % 2 ^ 16 % 256 ^ 2 + 2 ^ 16 * (handler % 2 ^ 32 / 2 ^ 16 % 2 ^ 16 % 256 ^ 2) =
          handler % 2 ^ 32 := by
        norm_num
        omega
      simp (disch := omega) only [gate, Gate.to, load_store_apart, load_store_same, halves]
      norm_num
  next => cases registered

/-- A registration changes one entry. -/
theorem gate_other (registered : registerInterruptHandler idt num handler = some idt') (other : v ≠ num) :
    gate idt' v = gate idt v := by
  have apart : v * entryBytes + entryBytes ≤ num * entryBytes ∨ num * entryBytes + entryBytes ≤ v * entryBytes := by
    rw [entryBytes]
    omega
  rw [entryBytes] at apart
  rw [registerInterruptHandler] at registered
  split at registered
  next =>
      obtain rfl := Option.some.inj registered
      simp (disch := (simp only [entryBytes]; omega)) only [gate, load_store_apart]
  next => cases registered

theorem register_total (inside : num < idtSize) (idt : Bytes) (handler : Nat) :
    ∃ idt', registerInterruptHandler idt num handler = some idt' := ⟨_, if_pos inside⟩

/-- A registration is an update of the map. -/
theorem Table.register (table : Table idt handlers)
    (registered : registerInterruptHandler idt num handler = some idt') :
    Table idt' (Function.update handlers num (some handler)) := by
  intro v inside
  by_cases same : v = num
  · rw [same, gate_registered registered, Function.update_self]
    rfl
  · rw [gate_other registered same, Function.update_of_ne same]
    exact table v inside

theorem memset_inside {m : Bytes} {s x n : Nat} {c : UInt8} (lower : s ≤ x) (upper : x < s + n) :
    memset m s c n x = c := by
  have before (m : Bytes) (n s : Nat) (x : Nat) (early : x < s) : memset m s c n x = m x := by
    induction n generalizing m s with
    | zero => rfl
    | succ n ih =>
        rw [memset, ih _ _ (by omega), Function.update_of_ne (by omega)]
  induction n generalizing m s with
  | zero => omega
  | succ n ih =>
      rw [memset]
      by_cases first : x = s
      · rw [before _ _ _ _ (by omega), first, Function.update_self]
      · exact ih (by omega) (by omega)

theorem load_zero {m : Bytes} {a width : Nat} (zero : ∀ x, a ≤ x → x < a + width → m x = 0) : load m a width = 0 := by
  induction width generalizing a with
  | zero => rfl
  | succ width ih =>
      rw [load, zero a (le_refl a) (by omega), ih fun x lower upper => zero x (by omega) (by omega)]
      rfl

/-- A cleared table has no gate. -/
theorem table_cleared (idt : Bytes) : Table (memset idt 0 0 (entryBytes * idtSize)) fun _ => none := by
  intro v inside
  have zero (a width : Nat) (upper : a + width ≤ entryBytes * idtSize) :
      load (memset idt 0 0 (entryBytes * idtSize)) a width = 0 :=
    load_zero fun x _ last => memset_inside (Nat.zero_le x) (by omega)
  rw [idtSize] at inside
  have bytes : entryBytes * idtSize = 2048 := rfl
  rw [bytes] at zero ⊢
  have entry : v * entryBytes + 8 ≤ 2048 := by
    rw [entryBytes]
    omega
  rw [gate, zero _ _ (by omega), zero _ _ (by omega), zero _ _ (by omega), zero _ _ (by omega), zero _ _ (by omega)]
  rfl

end Gates

/-- The registrations in turn, as vectors with handlers. -/
def registerAll : List (Nat × Nat) → Bytes → Option Bytes
  | [], idt => some idt
  | r :: rest, idt => (registerInterruptHandler idt r.1 r.2).bind fun idt => registerAll rest idt

/-- The map that the registrations make of another one. -/
def handlersAfter (handlers : Nat → Option Nat) (registrations : List (Nat × Nat)) : Nat → Option Nat :=
  registrations.foldl (fun handlers r => Function.update handlers r.1 (some r.2)) handlers

section Runs

variable {P : Ports D} {s s' : Interrupts D} {idt : Bytes} {handlers : Nat → Option Nat} {exceptionHandler : Nat}

theorem Table.registerAll {registrations : List (Nat × Nat)} (table : Table idt handlers)
    (inside : ∀ r ∈ registrations, r.1 < idtSize) : ∃ idt', Idt.registerAll registrations idt = some idt' ∧
      Table idt' (handlersAfter handlers registrations) := by
  induction registrations generalizing idt handlers with
  | nil => exact ⟨idt, rfl, table⟩
  | cons r rest ih =>
      obtain ⟨idt₁, first⟩ := register_total (inside r List.mem_cons_self) idt r.2
      obtain ⟨idt', done, final⟩ := ih (table.register first) fun q member => inside q (List.mem_cons_of_mem r member)
      refine ⟨idt', ?_, final⟩
      rw [Idt.registerAll, first]
      exact done

/-- The first vectors share a handler, and the others have none. -/
def shared (count handler v : Nat) : Option Nat := if v < count then some handler else none

/-- A registration of the next vector. -/
theorem shared_succ (count handler : Nat) :
    Function.update (shared count handler) count (some handler) = shared (count + 1) handler := by
  funext v
  by_cases same : v = count
  · rw [same, Function.update_self, shared, if_pos (Nat.lt_succ_self count)]
  · rw [Function.update_of_ne same, shared, shared]
    by_cases before : v < count
    · rw [if_pos before, if_pos (by omega)]
    · rw [if_neg before, if_neg (by omega)]

theorem initExceptions_table (idt : Bytes) (exceptionHandler : Nat) :
    ∃ idt', initExceptions (memset idt 0 0 (entryBytes * idtSize)) exceptionHandler = some idt' ∧
      Table idt' (shared 32 exceptionHandler) := by
  obtain ⟨idt', done, table⟩ := forLoop_invariant
    (fun i idt => registerInterruptHandler idt i exceptionHandler)
    (fun n idt => Table idt (shared n exceptionHandler)) 0 32 (memset idt 0 0 (entryBytes * idtSize))
    (table_cleared idt)
    (by
      intro n idt₁ _ upper known
      obtain ⟨idt₂, registered⟩ := register_total (show n < idtSize by rw [idtSize]; omega) idt₁ exceptionHandler
      refine ⟨idt₂, registered, ?_⟩
      rw [← shared_succ]
      exact known.register registered)
  exact ⟨idt', done, table⟩

/-- The register covers the whole table. -/
theorem idtLoad_fillIdtp (idtp : Bytes) (idt : Nat) : idtLoad (fillIdtp idtp idt) = ⟨2047, idt % 2 ^ 32⟩ := by
  have bytes : entryBytes * idtSize - 1 = 2047 := rfl
  rw [idtLoad, fillIdtp, bytes]
  simp (disch := omega) only [load_store_apart, load_store_same]
  norm_num

/-- `init_interrupts` returns with the exceptions in the table and the register at the table. -/
theorem initInterrupts_spec (P : Ports D) (idt exceptionHandler : Nat) (s : Interrupts D) :
    ∃ s', initInterrupts P idt exceptionHandler s = some s' ∧ Table s'.idt (shared 32 exceptionHandler) ∧
      s'.idtr = ⟨2047, idt % 2 ^ 32⟩ ∧
      s'.bus = ((picRemap P s.bus).outb P 0x21 0xFD).outb P 0xA1 0xFF := by
  obtain ⟨table, done, holds⟩ := initExceptions_table s.idt exceptionHandler
  refine ⟨⟨table, fillIdtp s.idtp idt, idtLoad (fillIdtp s.idtp idt),
    ((picRemap P s.bus).outb P 0x21 0xFD).outb P 0xA1 0xFF⟩, ?_, holds, idtLoad_fillIdtp _ _, rfl⟩
  rw [initInterrupts, done]
  rfl

end Runs

section Lookup

variable {handlers : Nat → Option Nat} {before after : List (Nat × Nat)} {v handler : Nat}

/-- A vector that is not registered keeps its handler. -/
theorem handlersAfter_absent {registrations : List (Nat × Nat)} (absent : ∀ r ∈ registrations, r.1 ≠ v) :
    handlersAfter handlers registrations v = handlers v := by
  induction registrations generalizing handlers with
  | nil => rfl
  | cons r rest ih =>
      change handlersAfter (Function.update handlers r.1 (some r.2)) rest v = _
      rw [ih fun q member => absent q (List.mem_cons_of_mem r member),
        Function.update_of_ne (absent r List.mem_cons_self).symm]

/-- The last registration of a vector counts. -/
theorem handlersAfter_last (last : ∀ r ∈ after, r.1 ≠ v) :
    handlersAfter handlers (before ++ (v, handler) :: after) v = some handler := by
  rw [handlersAfter, List.foldl_append, List.foldl_cons]
  exact (handlersAfter_absent last).trans (Function.update_self _ _ _)

end Lookup

/-- After `init_interrupts` and any registrations the processor finds the last handler of each vector, the exception
handler in the other vectors below 32, and no gate elsewhere. All gates are inside the limit. -/
theorem registrations_found (P : Ports D) (idt exceptionHandler : Nat) (s : Interrupts D)
    (registrations : List (Nat × Nat)) (inside : ∀ r ∈ registrations, r.1 < idtSize) :
    ∃ s' table, initInterrupts P idt exceptionHandler s = some s' ∧ registerAll registrations s'.idt = some table ∧
      s'.idtr.base = idt % 2 ^ 32 ∧ ∀ v, v < idtSize →
        v * entryBytes + 7 ≤ s'.idtr.limit ∧
        ((∀ r ∈ registrations, r.1 ≠ v) → gate table v = if v < 32 then .to exceptionHandler else .absent) ∧
        ∀ before handler after, registrations = before ++ (v, handler) :: after → (∀ r ∈ after, r.1 ≠ v) →
          gate table v = .to handler := by
  obtain ⟨s', done, initial, register, _⟩ := initInterrupts_spec P idt exceptionHandler s
  obtain ⟨table, registered, final⟩ := initial.registerAll inside
  refine ⟨s', table, done, registered, by rw [register], ?_⟩
  intro v below
  refine ⟨?_, ?_, ?_⟩
  · rw [register]
    rw [idtSize] at below
    change v * 8 + 7 ≤ 2047
    omega
  · intro absent
    rw [final v below, handlersAfter_absent absent, shared]
    split <;> rfl
  · rintro before handler after rfl last
    rw [final v below, handlersAfter_last last]
    rfl

/-- The sample registers the keyboard twice. -/
theorem registrations_found_sample : ∃ table, registerAll [(33, 0x101234), (40, 7), (33, 0x105678)]
    ((initInterrupts ⟨fun _ (d : Unit) => (0, d), fun _ _ d => d⟩ 0x200000 0x100000
      ⟨fun _ => 0xFF, fun _ => 0xFF, ⟨0, 0⟩, ⟨(), []⟩⟩).elim (fun _ => 0) Interrupts.idt) = some table ∧
    gate table 33 = ⟨0x105678, 0x08, 0, 0x8E⟩ ∧ gate table 14 = ⟨0x100000, 0x08, 0, 0x8E⟩ ∧
    gate table 200 = .absent := by
  obtain ⟨s', table, done, registered, _, found⟩ :=
    registrations_found ⟨fun _ (d : Unit) => (0, d), fun _ _ d => d⟩ 0x200000 0x100000
      ⟨fun _ => 0xFF, fun _ => 0xFF, ⟨0, 0⟩, ⟨(), []⟩⟩ [(33, 0x101234), (40, 7), (33, 0x105678)] (by decide)
  refine ⟨table, by rw [done]; exact registered, ?_, ?_, ?_⟩
  · exact (found 33 (by decide)).2.2 [(33, 0x101234), (40, 7)] 0x105678 [] rfl (by decide)
  · exact (found 14 (by decide)).2.1 (by decide)
  · exact (found 200 (by decide)).2.1 (by decide)

end OsKernel.Idt
