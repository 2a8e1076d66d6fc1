import OsKernel.Drivers.Printk
import OsKernel.Drivers.Terminal

/-
This file lets `printk` write to the console, and reads the hardware cursor off the bytes sent to its ports.
-/

namespace OsKernel.Vga
open Library Printk

/-- `printk` passes its characters to `vga_putc` and moves the cursor once more. -/
def printkTo (junk format : Bytes) (fuel : Nat) (args : List Arg) (s : Console) : Option Console :=
  (printk junk format fuel args).bind fun p => (putAll s p.output).map moveCursor

/-- `printk` of a text without directives. -/
def say (text : List UInt8) (s : Console) : Option Console := (putAll s text).map moveCursor

/-- A call of `printk`. The buffer for numbers has any contents. -/
structure Call where
  junk : Bytes
  format : Bytes
  args : List Arg

/-- The calls are made in turn. -/
def printCalls (fuel : Nat) : List Call → Console → Option Console
  | [], s => some s
  | c :: calls, s => (printkTo c.junk c.format fuel c.args s).bind fun s => printCalls fuel calls s

/-- The display controller has one port for the index of a register and one for its contents. -/
structure Crtc where
  index : UInt8
  register : UInt8 → UInt8

def Crtc.write (c : Crtc) (w : Nat × UInt8) : Crtc :=
  if w.1 = 0x3D4 then { c with index := w.2 }
  else if w.1 = 0x3D5 then { c with register := Function.update c.register c.index w.2 }
  else c

/-- The cell at which the hardware shows the cursor. -/
def Crtc.position (c : Crtc) : Nat := (c.register 0x0E).toNat * 256 + (c.register 0x0F).toNat

/-- The hardware cursor stands at the cursor of the console. -/
def Pointed (c : Crtc) (s : Console) : Prop :=
  (s.ports.foldl Crtc.write c).position = s.cursorY * vgaWidth + s.cursorX

/-- The screen is the window of the terminal, with the cursor inside. -/
structure Shows (s : Console) (t : Terminal) : Prop where
  tracks : Tracks s t
  inside : s.cursorY < vgaHeight

/-- The format is a string that does not end in a lone percent sign, and its arguments fit. -/
structure Call.Fits (c : Call) (text : List UInt8) : Prop where
  stored : Stored c.format text
  visible : 0 ∉ text
  matching : Matching text c.args
  paired : endsInPercent text = false

section Cursor

variable {s s' : Console} {t : Terminal} {c : Crtc}

/-- The two bytes of the position reach their registers. -/
theorem moveCursor_pointed (c : Crtc) (narrow : s.cursorX < vgaWidth) (inside : s.cursorY < vgaHeight) :
    Pointed c (moveCursor s) := by
  have width : vgaWidth = 80 := rfl
  have height : vgaHeight = 25 := rfl
  have small : s.cursorY * vgaWidth + s.cursorX < 2 ^ 16 := by
    rw [width] at narrow ⊢
    omega
  rw [Pointed, moveCursor]
  dsimp only
  rw [List.foldl_append, Nat.mod_eq_of_lt small]
  generalize s.ports.foldl Crtc.write c = before
  have low : (UInt8.ofNat ((s.cursorY * vgaWidth + s.cursorX) % 256)).toNat =
      (s.cursorY * vgaWidth + s.cursorX) % 256 := by
    rw [UInt8.toNat_ofNat']
    omega
  have high : (UInt8.ofNat ((s.cursorY * vgaWidth + s.cursorX) / 256 % 256)).toNat =
      (s.cursorY * vgaWidth + s.cursorX) / 256 % 256 := by
    rw [UInt8.toNat_ofNat']
    omega
  simp [Crtc.write, Crtc.position, low, high]
  omega

theorem Shows.moveCursor (shows : Shows s t) : Shows (moveCursor s) t :=
  ⟨⟨shows.tracks.column, shows.tracks.width, shows.tracks.row, shows.tracks.screen, shows.tracks.below⟩, shows.inside⟩

theorem Shows.pointed (shows : Shows s t) (c : Crtc) : Pointed c (Vga.moveCursor s) :=
  moveCursor_pointed c (shows.tracks.column ▸ shows.tracks.width) shows.inside

/-- A text is shown on the screen, and then the hardware cursor is behind it. -/
theorem Shows.say (shows : Shows s t) (text : List UInt8) (c : Crtc) :
    ∃ s', Vga.say text s = some s' ∧ Shows s' (text.foldl Terminal.putc t) ∧ Pointed c s' := by
  obtain ⟨s₁, put, tracks, inside⟩ := shows.tracks.putAll shows.inside text
  have shown : Shows s₁ (text.foldl Terminal.putc t) := ⟨tracks, inside⟩
  refine ⟨Vga.moveCursor s₁, ?_, shown.moveCursor, shown.pointed c⟩
  rw [Vga.say, put]
  rfl

end Cursor

section Calls

variable {s s' : Console} {t : Terminal} {call : Call} {text out : List UInt8} {fuel more : Nat}

/-- More fuel never changes what is printed. -/
theorem printkLoop_mono {junk format : Bytes} {pos : Nat} {args : List Arg} {p printed : Printed}
    (ended : printkLoop junk format fuel pos args p = some printed) (enough : fuel ≤ more) :
    printkLoop junk format more pos args p = some printed := by
  induction fuel generalizing more pos args p with
  | zero => cases ended
  | succ fuel ih =>
      obtain ⟨rest, rfl⟩ : ∃ rest, more = rest + 1 := ⟨more - 1, by omega⟩
      by_cases null : format pos = 0
      · rw [printkLoop_end null] at ended ⊢
        exact ended
      · by_cases percent : format pos = 0x25
        · rw [printkLoop_percent percent] at ended ⊢
          obtain ⟨r, handled, later⟩ := Option.bind_eq_some_iff.mp ended
          rw [handled, Option.bind_some]
          exact ih later (by omega)
        · rw [printkLoop_plain null percent] at ended ⊢
          exact ih ended (by omega)

theorem printkTo_mono {junk format : Bytes} {args : List Arg}
    (done : printkTo junk format fuel args s = some s') (enough : fuel ≤ more) :
    printkTo junk format more args s = some s' := by
  obtain ⟨printed, ended, shown⟩ := Option.bind_eq_some_iff.mp done
  rw [printkTo, printk, printkLoop_mono ended enough]
  exact shown

theorem printCalls_mono {calls : List Call} (done : printCalls fuel calls s = some s') (enough : fuel ≤ more) :
    printCalls more calls s = some s' := by
  induction calls generalizing s with
  | nil => exact done
  | cons c calls ih =>
      obtain ⟨s₁, first, rest⟩ := Option.bind_eq_some_iff.mp done
      rw [printCalls, printkTo_mono first enough]
      exact ih rest

/-- A call that fits prints what its format stands for. -/
theorem Call.Fits.printkTo (fits : call.Fits text) (rendered : render text call.args = some out) (s : Console) :
    ∃ fuel, Vga.printkTo call.junk call.format fuel call.args s = say out s := by
  have placed : RestAt call.format 0 text := by
    intro k inside
    rw [Nat.zero_add]
    exact fits.stored k inside
  obtain ⟨fuel, printed, ended, output, _⟩ :=
    printkLoop_renders (p := ⟨[], []⟩) placed fits.visible fits.paired fits.matching.ints rfl rendered
  refine ⟨fuel, ?_⟩
  rw [Vga.printkTo, printk, ended, Option.bind_some, output]
  rfl

/-- A text without percent signs stands for itself. -/
theorem render_plain (plain : 0x25 ∉ text) : render text [] = some text ∧ endsInPercent text = false := by
  induction text with
  | nil => exact ⟨rfl, rfl⟩
  | cons c rest ih =>
      rw [List.mem_cons, not_or] at plain
      obtain ⟨same, paired⟩ := ih plain.2
      have other : c ≠ 0x25 := Ne.symm plain.1
      cases rest with
      | nil => exact ⟨rfl, by simpa [endsInPercent] using other⟩
      | cons d rest =>
          rw [render, if_neg other, same, endsInPercent, if_neg other]
          exact ⟨rfl, paired⟩

/-- `say` is what `printk` does with such a text. -/
theorem printkTo_plain (visible : 0 ∉ text) (plain : 0x25 ∉ text) (junk : Bytes) (s : Console) :
    ∃ fuel, printkTo junk (inMemory text) fuel [] s = say text s := by
  obtain ⟨same, paired⟩ := render_plain plain
  have fits : Call.Fits ⟨junk, inMemory text, []⟩ text :=
    ⟨fun k _ => rfl, visible, ⟨fun n member => absurd member List.not_mem_nil, by rw [same]; rfl⟩, paired⟩
  exact fits.printkTo same s

/-- The texts that the calls stand for, one behind the other. -/
inductive Rendered : List Call → List UInt8 → Prop
  | nil : Rendered [] []
  | cons {c : Call} {calls : List Call} {text out rest : List UInt8} (fits : c.Fits text)
      (first : render text c.args = some out) (later : Rendered calls rest) : Rendered (c :: calls) (out ++ rest)

/-- Every sequence of calls is shown in order, and the hardware cursor follows. -/
theorem Shows.printCalls {calls : List Call} (shows : Shows s t) (rendered : Rendered calls out) (c : Crtc) :
    ∃ fuel s', Vga.printCalls fuel calls s = some s' ∧ Shows s' (out.foldl Terminal.putc t) ∧
      (calls ≠ [] → Pointed c s') := by
  induction rendered generalizing s t with
  | nil => exact ⟨0, s, rfl, shows, fun some => absurd rfl some⟩
  | cons fits first later ih =>
      obtain ⟨s₁, said, shown, pointed⟩ := shows.say _ c
      obtain ⟨fuel, call⟩ := fits.printkTo first s
      obtain ⟨fuel', s', rest, final, follows⟩ := ih shown
      refine ⟨max fuel fuel', s', ?_, ?_, ?_⟩
      · rw [Vga.printCalls, printkTo_mono (call.trans said) (Nat.le_max_left fuel fuel')]
        exact printCalls_mono rest (Nat.le_max_right fuel fuel')
      · rw [List.foldl_append]
        exact final
      · intro _
        cases later with
        | nil =>
            obtain rfl := Option.some.inj rest
            exact pointed
        | cons => exact follows (List.cons_ne_nil _ _)

end Calls

/-- Every run of `printk` calls shows the terminal with what the calls stand for, one behind the other, and the
hardware cursor is at the cursor of the terminal. -/
theorem printk_run_shows (screen : Bytes) (c : Crtc) {calls : List Call} {out : List UInt8}
    (rendered : Rendered calls out) : ∃ fuel s, printCalls fuel calls (start screen) = some s ∧
      Shows s (out.foldl Terminal.putc (.initial screen)) ∧ (calls ≠ [] →
        (s.ports.foldl Crtc.write c).position =
          ((out.foldl Terminal.putc (.initial screen)).row - (out.foldl Terminal.putc (.initial screen)).top) * 80 +
            (out.foldl Terminal.putc (.initial screen)).col) := by
  have fresh : Shows (start screen) (.initial screen) := ⟨tracks_start screen, Nat.succ_pos 24⟩
  obtain ⟨fuel, s, done, shown, pointed⟩ := fresh.printCalls rendered c
  refine ⟨fuel, s, done, shown, ?_⟩
  intro some
  have row := shown.tracks.row
  rw [pointed some, shown.tracks.column, vgaWidth]
  omega

/-- The sample prints `hi` with a newline, and then the number 42 as `%d`. -/
theorem printk_run_shows_sample : ∃ fuel s, printCalls fuel [⟨fun _ => 0, inMemory [0x68, 0x69, 0x0A], []⟩,
    ⟨fun _ => 0, inMemory [0x25, 0x64], [.int 42]⟩] (start fun _ => 0) = some s ∧
    (s.ports.foldl Crtc.write ⟨0, fun _ => 0⟩).position = 82 := by
  have text : Call.Fits ⟨fun _ => 0, inMemory [0x68, 0x69, 0x0A], []⟩ [0x68, 0x69, 0x0A] :=
    ⟨fun k _ => rfl, by decide, ⟨fun n member => absurd member List.not_mem_nil, rfl⟩, rfl⟩
  have answer : render [0x25, 0x64] [.int 42] = some [0x34, 0x32] := by decide +kernel
  have number : Call.Fits ⟨fun _ => 0, inMemory [0x25, 0x64], [.int 42]⟩ [0x25, 0x64] := by
    refine ⟨fun k _ => rfl, by decide, ⟨?_, by rw [answer]; rfl⟩, rfl⟩
    intro n member
    simp only [List.mem_singleton, Arg.int.injEq] at member
    rw [member, IsInt]
    norm_num
  obtain ⟨fuel, s, done, _, pointed⟩ := printk_run_shows (fun _ => 0) ⟨0, fun _ => 0⟩
    (.cons text rfl (.cons number answer .nil))
  exact ⟨fuel, s, done, pointed (by simp)⟩

end OsKernel.Vga
