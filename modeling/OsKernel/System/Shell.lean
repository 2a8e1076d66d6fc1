import OsKernel.Drivers.ReadInput
import OsKernel.Drivers.Screen
import OsKernel.Fs.Registry
import OsKernel.Library.Runs

/-
This file runs the shell of `shell.c` against the interrupts of the keyboard, on one screen.
An interrupt, and a turn of the loop of `read_input`, is one step. The Enter key never reaches the reader, so a line
only ends when it is full, and the shell never answers.
-/

namespace OsKernel.System
open Library Vga Keyboard

/-- The size of the buffer `command`. -/
def commandSize : Nat := 300000

/-- The word `version`. -/
def versionWord : List UInt8 := [0x76, 0x65, 0x72, 0x73, 0x69, 0x6F, 0x6E]

/-- The text `jiahao@v1.0.0` with a newline. -/
def versionAnswer : List UInt8 :=
  [0x6A, 0x69, 0x61, 0x68, 0x61, 0x6F, 0x40, 0x76, 0x31, 0x2E, 0x30, 0x2E, 0x30, 0x0A]

def prompt : List UInt8 := [0x3E, 0x20]

/-- The string in a buffer ends at the first null. -/
def stringIn (size : Nat) (m : Bytes) : List UInt8 := ((List.range size).map m).takeWhile (· ≠ 0)

/-- The keyboard driver, the call of `read_input` in progress, the screen, and what happened so far: the characters
shown, the keys of this call, the finished lines and the answers. -/
structure Shell where
  device : Device
  line : Line
  console : Console
  shown : List UInt8
  keys : List UInt8
  lines : List (List UInt8)
  answers : Nat

/-- A `printk` of a text without directives. -/
def Shell.print (s : Shell) (line : List UInt8) : Option Shell :=
  (say line s.console).map fun console => { s with console := console, shown := s.shown ++ line }

/-- The interrupt announces itself and shows the key. -/
def Shell.press (s : Shell) (scancode : UInt8) : Option Shell := do
  let device ← keyboardHandler s.device scancode
  let s ← Shell.print { s with device := device } banner
  match typedBy scancode with
  | [] => return s
  | key => s.print key

/-- The shell compares the finished line, prompts and calls `read_input` again with the same buffer. -/
def Shell.finish (s : Shell) (l : Line) : Option Shell := do
  let command := stringIn commandSize l.buffer
  let s := { s with line := ⟨l.buffer, 0, [], []⟩, keys := [], lines := s.lines ++ [command] }
  let s ← if Fs.strcmp command versionWord = 0 then
      Shell.print { s with answers := s.answers + 1 } versionAnswer
    else some s
  s.print prompt

/-- A turn takes a key, if there is one, and shows what it did to the line. -/
def Shell.turn (s : Shell) : Option Shell := do
  let (c, device) ← getKey s.device
  let s := { s with device := device, keys := s.keys ++ [c] }
  match readLoop commandSize [c] { s.line with screen := [] } with
  | .waiting l => Shell.print { s with line := l } l.screen
  | .returned l _ => s.finish l

/-- An interrupt of the keyboard, or a turn of the shell. -/
inductive Event
  | press (scancode : UInt8)
  | turn
  deriving DecidableEq

def Shell.next (s : Shell) : Event → Option Shell
  | .press scancode => s.press scancode
  | .turn => s.turn

def Shell.Step (s : Shell) (event : Event) (s' : Shell) : Prop := s.next event = some s'

/-- The shell starts behind its first prompt, on a screen that is in use. The driver has seen no key. -/
def Shell.start (stored command : Bytes) (console : Console) : Shell :=
  ⟨⟨stored, 0, []⟩, ⟨command, 0, [], []⟩, console, [], [], [], 0⟩

/-- A full line: it has all characters that fit, and none of them is a newline or a null. -/
structure Full (line : List UInt8) : Prop where
  length : line.length = commandSize - 1
  newline : 0x0A ∉ line
  null : 0 ∉ line

/-- The driver holds no newline and no null, the line is what the keys made of it, and only full lines are finished. -/
structure Shell.Quiet (t : Terminal) (s : Shell) : Prop where
  bound : s.device.bufferIndex ≤ 255
  stored : ∀ c ∈ buffered s.device, c ≠ 0x0A ∧ c ≠ 0
  keys : ∀ c ∈ s.keys, c ≠ 0x0A ∧ c ≠ 0
  holds : Holds s.line (s.keys.foldl keep [])
  room : (s.keys.foldl keep []).length < commandSize
  inside : Inside commandSize s.line
  lines : ∀ line ∈ s.lines, Full line
  silent : s.answers = 0
  shows : Shows s.console (s.shown.foldl Terminal.putc t)

section Pieces

variable {s s' : Shell} {t : Terminal} {line : List UInt8} {c : UInt8}

/-- A text on the screen changes nothing else. -/
theorem Shell.print_spec (shows : Shows s.console (s.shown.foldl Terminal.putc t)) (line : List UInt8) :
    ∃ console, s.print line = some { s with console := console, shown := s.shown ++ line } ∧
      Shows console ((s.shown ++ line).foldl Terminal.putc t) := by
  obtain ⟨console, said, shown, _⟩ := shows.say line ⟨0, fun _ => 0⟩
  refine ⟨console, ?_, ?_⟩
  · rw [Shell.print, said]
    rfl
  · rw [List.foldl_append]
    exact shown

/-- A typed character is not null. -/
theorem typedBy_visible {scancode : UInt8} (typed : typedBy scancode = [c]) : c ≠ 0 := by
  rw [typedBy] at typed
  split at typed
  next => cases typed
  next visible =>
      obtain rfl := (List.cons.inj typed).1
      exact fun null => visible (.inr null)

/-- A line of visible characters is the string that ends behind it. -/
theorem stringIn_eq {size : Nat} {m : Bytes} (stored : Printk.Stored m line) (short : line.length < size)
    (visible : 0 ∉ line) : stringIn size m = line := by
  obtain ⟨k, split⟩ : ∃ k, size = line.length + (k + 1) := ⟨size - line.length - 1, by omega⟩
  have front : (List.range line.length).map m = line := by
    apply List.ext_getElem (by simp)
    intro i left right
    rw [List.getElem_map, List.getElem_range, stored i (by omega), List.getD_eq_getElem _ _ right]
  have null : m line.length = 0 := by
    rw [stored _ (Nat.le_refl _), List.getD_eq_default]
    exact Nat.le_refl _
  rw [stringIn, split, List.range_add, List.map_append, front, List.takeWhile_append_of_pos]
  · simp [List.range_succ_eq_map, null]
  · intro d member
    have nonzero : d ≠ 0 := fun same => visible (same ▸ member)
    simpa using nonzero

/-- The line keeps only keys. -/
theorem mem_foldl_keep {keys : List UInt8} (member : c ∈ keys.foldl keep line) : c ∈ line ∨ c ∈ keys := by
  induction keys generalizing line with
  | nil => exact .inl member
  | cons d keys ih =>
      rcases ih member with earlier | later
      · rw [keep] at earlier
        split at earlier
        next => exact .inl (List.mem_of_mem_dropLast earlier)
        next =>
            rcases List.mem_append.mp earlier with old | new
            · exact .inl old
            · exact .inr (List.mem_singleton.mp new ▸ List.mem_cons_self)
      · exact .inr (List.mem_cons_of_mem d later)

/-- A full line is not the word `version`. -/
theorem Full.other (full : Full line) : Fs.strcmp line versionWord ≠ 0 := by
  intro same
  have equal := (Fs.strcmp_eq_zero_iff full.null (by decide)).mp same
  have length := full.length
  rw [equal, commandSize] at length
  cases length

end Pieces

section Steps

variable {s s' : Shell} {t : Terminal} {scancode : UInt8}

theorem Shell.Quiet.press (quiet : s.Quiet t) (scancode : UInt8) :
    ∃ s', s.press scancode = some s' ∧ s'.Quiet t := by
  obtain ⟨device, handled, bound, cases⟩ := keyboardHandler_spec quiet.bound scancode
  have stored : ∀ c ∈ buffered device, c ≠ 0x0A ∧ c ≠ 0 := by
    rcases cases with ⟨_, same⟩ | ⟨_, empty⟩ | ⟨c, plain, typed, ⟨_, same⟩ | added⟩
    · rw [same]
      exact quiet.stored
    · rw [empty]
      simp
    · rw [same]
      exact quiet.stored
    · rw [added]
      intro d member
      rcases List.mem_append.mp member with old | new
      · exact quiet.stored d old
      · obtain rfl := List.mem_singleton.mp new
        exact ⟨plain, typedBy_visible typed⟩
  obtain ⟨c₁, first, shown₁⟩ := Shell.print_spec (s := { s with device := device }) quiet.shows banner
  have kept (console : Console) (shown : List UInt8) (shows : Shows console (shown.foldl Terminal.putc t)) :
      Shell.Quiet t { s with device := device, console := console, shown := shown } :=
    ⟨bound, stored, quiet.keys, quiet.holds, quiet.room, quiet.inside, quiet.lines, quiet.silent, shows⟩
  cases typed : typedBy scancode with
  | nil =>
      refine ⟨_, ?_, kept c₁ _ shown₁⟩
      simp only [Shell.press, handled, first, typed, Option.bind_eq_bind, Option.bind_some, Option.pure_def]
  | cons c rest =>
      obtain ⟨c₂, second, shown₂⟩ := Shell.print_spec
        (s := { s with device := device, console := c₁, shown := s.shown ++ banner }) shown₁ (c :: rest)
      refine ⟨_, ?_, kept c₂ _ shown₂⟩
      simp only [Shell.press, handled, first, typed, second, Option.bind_eq_bind, Option.bind_some]

/-- A line that is full is compared in vain, and the next call starts with the same buffer. -/
theorem Shell.Quiet.finish {l : Line} {line : List UInt8} (quiet : s.Quiet t)
    (stored : Printk.Stored l.buffer line) (full : Full line) :
    ∃ s', s.finish l = some s' ∧ s'.Quiet t := by
  have string : stringIn commandSize l.buffer = line := by
    refine stringIn_eq stored ?_ full.null
    rw [full.length, commandSize]
    omega
  obtain ⟨console, printed, shown⟩ := Shell.print_spec
    (s := { s with line := ⟨l.buffer, 0, [], []⟩, keys := [], lines := s.lines ++ [line] }) quiet.shows prompt
  refine ⟨_, Eq.trans ?_ printed, ?_⟩
  · simp only [Shell.finish, string, if_neg full.other, Option.bind_eq_bind, Option.bind_some]
  refine ⟨quiet.bound, quiet.stored, by simp, holds_fresh l.buffer, by simp [commandSize], ?_, ?_, quiet.silent, shown⟩
  · exact ⟨by simp [commandSize], by simp⟩
  · intro other member
    rcases List.mem_append.mp member with old | new
    · exact quiet.lines other old
    · rw [List.mem_singleton.mp new]
      exact full

/-- A turn keeps a key that fits, and finishes the line at a key that does not. -/
theorem Shell.Quiet.turn (quiet : s.Quiet t) (waiting : 0 < s.device.bufferIndex) :
    ∃ s', s.turn = some s' ∧ s'.Quiet t := by
  obtain ⟨c, device, read, front, index⟩ := getKey_spec quiet.bound waiting
  have bound : device.bufferIndex ≤ 255 := by
    have before := quiet.bound
    omega
  have key : c ≠ 0x0A ∧ c ≠ 0 := quiet.stored c (by rw [front]; exact List.mem_cons_self)
  have stored : ∀ d ∈ buffered device, d ≠ 0x0A ∧ d ≠ 0 :=
    fun d member => quiet.stored d (by rw [front]; exact List.mem_cons_of_mem c member)
  have keys : ∀ d ∈ s.keys ++ [c], d ≠ 0x0A ∧ d ≠ 0 := by
    intro d member
    rcases List.mem_append.mp member with old | new
    · exact quiet.keys d old
    · rw [List.mem_singleton.mp new]
      exact key
  have holds : Holds { s.line with screen := [] } (s.keys.foldl keep []) := ⟨quiet.holds.index, quiet.holds.chars⟩
  by_cases room : (s.keys.foldl keep []).length < commandSize - 1
  · obtain ⟨l, same, kept⟩ := readLoop_keep holds key.1 room
    have inside : Inside commandSize (readLoop commandSize [c] { s.line with screen := [] }).line :=
      readLoop_inside [c] ⟨quiet.inside.index, quiet.inside.writes⟩
    have waits : readLoop commandSize [c] { s.line with screen := [] } = .waiting l := same
    rw [waits] at inside
    obtain ⟨console, printed, shown⟩ := Shell.print_spec
      (s := { s with device := device, keys := s.keys ++ [c], line := l }) quiet.shows l.screen
    refine ⟨_, Eq.trans ?_ printed, ?_⟩
    · simp only [Shell.turn, read, waits, Option.bind_eq_bind, Option.bind_some]
    refine ⟨bound, stored, keys, ?_, ?_, inside, quiet.lines, quiet.silent, shown⟩
    · rw [List.foldl_append]
      exact kept
    · rw [List.foldl_append]
      have short : (keep (s.keys.foldl keep []) c).length ≤ (s.keys.foldl keep []).length + 1 := by
        rw [keep]
        split
        next =>
            rw [List.length_dropLast]
            omega
        next => rw [List.length_append, List.length_singleton]
      change (keep (s.keys.foldl keep []) c).length < commandSize
      omega
  · have length : (s.keys.foldl keep []).length = commandSize - 1 := by
      have small := quiet.room
      omega
    have ends : readLoop commandSize [c] { s.line with screen := [] } =
        .returned (Line.write { s.line with screen := [] } 0) [] := by
      rw [readLoop, if_pos]
      right
      rw [holds.index, length]
    have visible (d : UInt8) (member : d ∈ s.keys.foldl keep []) : d ≠ 0x0A ∧ d ≠ 0 := by
      rcases mem_foldl_keep member with old | new
      · cases old
      · exact quiet.keys d new
    have full : Full (s.keys.foldl keep []) :=
      ⟨length, fun member => (visible _ member).1 rfl, fun member => (visible _ member).2 rfl⟩
    have taken : Shell.Quiet t { s with device := device, keys := s.keys } :=
      ⟨bound, stored, quiet.keys, quiet.holds, quiet.room, quiet.inside, quiet.lines, quiet.silent, quiet.shows⟩
    obtain ⟨s', finished, kept⟩ := taken.finish holds.terminated full
    refine ⟨s', ?_, kept⟩
    simp only [Shell.turn, read, ends, Option.bind_eq_bind, Option.bind_some]
    exact finished

theorem Shell.Step.quiet {event : Event} (taken : s.Step event s') (quiet : s.Quiet t) : s'.Quiet t := by
  cases event with
  | press scancode =>
      obtain ⟨final, done, kept⟩ := quiet.press scancode
      obtain rfl := Option.some.inj (done.symm.trans taken)
      exact kept
  | turn =>
      have waiting : 0 < s.device.bufferIndex := by
        rw [Nat.pos_iff_ne_zero]
        intro empty
        change s.turn = some s' at taken
        rw [Shell.turn, getKey, if_pos empty] at taken
        cases taken
      obtain ⟨final, done, kept⟩ := quiet.turn waiting
      obtain rfl := Option.some.inj (done.symm.trans taken)
      exact kept

end Steps

end OsKernel.System
