import OsKernel.Drivers.Console

/-
This file gives a terminal with unboundedly many rows and proves that the console shows its window.
-/

namespace OsKernel.Vga
open Library

/-- A character with its attribute. -/
structure Cell where
  char : UInt8
  attr : UInt8

/-- A blank cell of attribute `0x07`. -/
def Cell.blank : Cell := ⟨0x20, 0x07⟩

/-- A terminal has rows of 80 columns without end, a cursor, and a window of 25 rows from `top` on. -/
structure Terminal where
  cell : Nat → Nat → Cell
  row : Nat
  col : Nat
  top : Nat

/-- A cell is written at the cursor. -/
def Terminal.write (t : Terminal) (c : Cell) : Terminal :=
  { t with cell := fun r k => if r = t.row ∧ k = t.col then c else t.cell r k }

/-- A backspace steps back by one cell, but not out of the window. -/
def Terminal.back (t : Terminal) : Terminal :=
  if t.col > 0 then { t with col := t.col - 1 }
  else if t.row > t.top then { t with row := t.row - 1, col := 79 }
  else t

/-- The cursor wraps at column 80. -/
def Terminal.forward (t : Terminal) : Terminal :=
  if t.col + 1 = 80 then { t with row := t.row + 1, col := 0 } else { t with col := t.col + 1 }

/-- The window moves down as far as the cursor needs. -/
def Terminal.reveal (t : Terminal) : Terminal :=
  if t.row < t.top + 25 then t else { t with top := t.row - 24 }

/-- The terminal before the window moves. -/
def Terminal.place (t : Terminal) (c : UInt8) : Terminal :=
  if c = 0x0A then { t with row := t.row + 1, col := 0 }
  else if c = 0x08 then t.back.write .blank
  else (t.write ⟨c, 0x07⟩).forward

/-- The terminal after a character. -/
def Terminal.putc (t : Terminal) (c : UInt8) : Terminal := (t.place c).reveal

/-- The cell of the screen at a row and a column. -/
def Console.cell (s : Console) (r k : Nat) : Cell := ⟨s.video ((r * 80 + k) * 2), s.video ((r * 80 + k) * 2 + 1)⟩

/-- The given screen is followed by blank rows. -/
def Terminal.initial (screen : Bytes) : Terminal :=
  ⟨fun r k => if r < 25 then (start screen).cell r k else .blank, 0, 0, 0⟩

/-- The screen is the window, and nothing is written below it. -/
structure Tracks (s : Console) (t : Terminal) : Prop where
  column : s.cursorX = t.col
  width : t.col < 80
  row : t.row = t.top + s.cursorY
  screen : ∀ r k, r < 25 → k < 80 → s.cell r k = t.cell (t.top + r) k
  below : ∀ r k, t.top + 25 ≤ r → t.cell r k = .blank

section Cells

variable {s : Console} {t : Terminal} {c : UInt8}

/-- A write changes the one cell at the cursor. -/
theorem Tracks.writeHere (tracks : Tracks s t) (inside : s.cursorY < 25) :
    ∃ s', Vga.writeHere s c = some s' ∧ Tracks s' (t.write ⟨c, 0x07⟩) ∧ s'.cursorY = s.cursorY := by
  have width := tracks.width
  have column := tracks.column
  have row := tracks.row
  have fits : (s.cursorY * vgaWidth + s.cursorX) * 2 + 1 < vgaBytes := by
    rw [vgaWidth, vgaBytes]
    omega
  have written : Vga.writeHere s c = some ⟨Function.update (Function.update s.video
      ((s.cursorY * vgaWidth + s.cursorX) * 2) c) ((s.cursorY * vgaWidth + s.cursorX) * 2 + 1) vgaColor,
      s.cursorX, s.cursorY, s.ports⟩ := by
    rw [Vga.writeHere, putCell_eq fits]
    rfl
  refine ⟨_, written, ⟨column, width, row, ?_, ?_⟩, rfl⟩
  · intro r k inner narrow
    have known := tracks.screen r k inner narrow
    simp only [Console.cell, Terminal.write, vgaWidth] at known ⊢
    by_cases here : t.top + r = t.row ∧ k = t.col
    · obtain ⟨rfl, rfl⟩ : r = s.cursorY ∧ k = s.cursorX := by omega
      rw [if_pos here, Function.update_self, Function.update_of_ne (by omega), Function.update_self]
      rfl
    · rw [if_neg here, ← known, Function.update_of_ne (by omega), Function.update_of_ne (by omega),
        Function.update_of_ne (by omega), Function.update_of_ne (by omega)]
  · intro r k under
    change t.top + 25 ≤ r at under
    have known := tracks.below r k under
    simp only [Terminal.write]
    rw [if_neg (by omega), known]

/-- The two cursors step back together. -/
theorem Tracks.stepBack (tracks : Tracks s t) (inside : s.cursorY < 25) :
    Tracks (Vga.stepBack s) t.back ∧ (Vga.stepBack s).cursorY < 25 := by
  obtain ⟨column, width, row, screen, below⟩ := tracks
  rw [Vga.stepBack, Terminal.back, column]
  by_cases inner : t.col > 0
  · rw [if_pos inner, if_pos inner]
    exact ⟨⟨rfl, by simp only; omega, row, screen, below⟩, inside⟩
  · rw [if_neg inner, if_neg inner]
    by_cases upper : s.cursorY > 0
    · rw [if_pos upper, if_pos (by omega)]
      exact ⟨⟨rfl, by simp only; omega, by simp only; omega, screen, below⟩, by simp only; omega⟩
    · rw [if_neg upper, if_neg (by omega)]
      exact ⟨⟨column, width, row, screen, below⟩, inside⟩

/-- The two cursors advance together, by one row at most. -/
theorem Tracks.advance (tracks : Tracks s t) :
    Tracks (Vga.advance s) t.forward ∧ (Vga.advance s).cursorY ≤ s.cursorY + 1 := by
  obtain ⟨column, width, row, screen, below⟩ := tracks
  rw [Vga.advance, Terminal.forward, column, vgaWidth]
  by_cases last : t.col + 1 = 80
  · rw [if_pos (by omega), if_pos last]
    exact ⟨⟨rfl, by simp only; omega, by simp only; omega, screen, below⟩, Nat.le_refl _⟩
  · rw [if_neg (by omega), if_neg last]
    exact ⟨⟨rfl, by simp only; omega, row, screen, below⟩, Nat.le_succ _⟩

/-- Every character is placed alike on the screen and on the terminal. -/
theorem Tracks.place (tracks : Tracks s t) (inside : s.cursorY < 25) (c : UInt8) :
    ∃ s', Vga.place s c = some s' ∧ Tracks s' (t.place c) ∧ s'.cursorY ≤ 25 := by
  rw [Terminal.place, Vga.place]
  by_cases newline : c = 0x0A
  · rw [if_pos newline, if_pos newline]
    obtain ⟨column, width, row, screen, below⟩ := tracks
    exact ⟨_, rfl, ⟨rfl, by simp only; omega, by simp only; omega, screen, below⟩, inside⟩
  · rw [if_neg newline, if_neg newline]
    by_cases backspace : c = 0x08
    · rw [if_pos backspace, if_pos backspace]
      obtain ⟨stepped, inner⟩ := tracks.stepBack inside
      obtain ⟨s', written, shown, same⟩ := stepped.writeHere (c := 0x20) inner
      exact ⟨s', written, shown, by omega⟩
    · rw [if_neg backspace, if_neg backspace]
      obtain ⟨s', written, shown, same⟩ := tracks.writeHere (c := c) inside
      obtain ⟨moved, bound⟩ := shown.advance
      have done : (Vga.writeHere s c).map Vga.advance = some (Vga.advance s') := by
        rw [written]
        rfl
      exact ⟨_, done, moved, by omega⟩

/-- A scroll moves the window down by one row. -/
theorem Tracks.scroll (tracks : Tracks s t) (limit : s.cursorY ≤ 25) :
    ∃ s', scrollIfNeeded s = some s' ∧ Tracks s' t.reveal ∧ s'.cursorY < 25 := by
  have row := tracks.row
  rw [scrollIfNeeded, Terminal.reveal, vgaHeight]
  by_cases needed : s.cursorY ≥ 25
  · rw [if_pos needed, if_neg (by omega)]
    obtain ⟨m, scrolled, moved⟩ := scroll_eq (m := s.video)
    have done : (Vga.scroll s.video).map (fun m => { s with video := m, cursorY := 25 - 1 }) =
        some { s with video := m, cursorY := 24 } := by
      rw [scrolled]
      rfl
    refine ⟨_, done, ⟨tracks.column, tracks.width, by simp only; omega, ?_, ?_⟩, by simp only; omega⟩
    · intro r k inner narrow
      have first := moved ((r * 80 + k) * 2) (by omega)
      have second := moved ((r * 80 + k) * 2 + 1) (by omega)
      simp only [Console.cell, first, second]
      by_cases upper : r < 24
      · have known := tracks.screen (r + 1) k (by omega) narrow
        have lower : (r * 80 + k) * 2 + 160 = ((r + 1) * 80 + k) * 2 := by omega
        have next : (r * 80 + k) * 2 + 1 + 160 = ((r + 1) * 80 + k) * 2 + 1 := by omega
        have place : t.row - 24 + r = t.top + (r + 1) := by omega
        rw [if_pos (by omega), if_pos (by omega), lower, next, place, ← known]
        rfl
      · have blank := tracks.below (t.row - 24 + r) k (by omega)
        rw [if_neg (by omega), if_neg (by omega), blank, blankByte, blankByte, if_pos (by omega), if_neg (by omega)]
        rfl
    · intro r k under
      exact tracks.below r k (by simp only at under; omega)
  · rw [if_neg needed, if_pos (by omega)]
    exact ⟨s, rfl, tracks, by omega⟩

/-- One character keeps the screen and the window equal. -/
theorem Tracks.vgaPutc (tracks : Tracks s t) (inside : s.cursorY < 25) (c : UInt8) :
    ∃ s', Vga.vgaPutc s c = some s' ∧ Tracks s' (t.putc c) ∧ s'.cursorY < 25 := by
  obtain ⟨s₁, placed, shown, limit⟩ := tracks.place inside c
  obtain ⟨s₂, scrolled, window, inner⟩ := shown.scroll limit
  have done : Vga.vgaPutc s c = some (moveCursor s₂) := by
    rw [Vga.vgaPutc, placed, Option.bind_eq_bind, Option.bind_some, scrolled]
    rfl
  refine ⟨moveCursor s₂, done, ?_, inner⟩
  exact ⟨window.column, window.width, window.row, window.screen, window.below⟩

/-- Every text keeps the screen and the window equal. -/
theorem Tracks.putAll (tracks : Tracks s t) (inside : s.cursorY < 25) (chars : List UInt8) :
    ∃ s', Vga.putAll s chars = some s' ∧ Tracks s' (chars.foldl Terminal.putc t) ∧ s'.cursorY < 25 := by
  induction chars generalizing s t with
  | nil => exact ⟨s, rfl, tracks, inside⟩
  | cons c rest ih =>
      obtain ⟨middle, first, shown, inner⟩ := tracks.vgaPutc inside c
      obtain ⟨final, later, kept, bound⟩ := ih shown inner
      exact ⟨final, by rw [Vga.putAll, first, Option.bind_some, later], kept, bound⟩

theorem tracks_start (screen : Bytes) : Tracks (start screen) (.initial screen) where
  column := rfl
  width := by
    change 0 < 80
    omega
  row := rfl
  screen := by
    intro r k inner _
    simp only [Terminal.initial, Nat.zero_add]
    rw [if_pos inner]
  below := by
    intro r k under
    simp only [Terminal.initial, Nat.zero_add] at under ⊢
    rw [if_neg (by omega)]

end Cells

/-- Every text stays inside the video memory and shows the window of the terminal. -/
theorem vga_shows_terminal (screen : Bytes) (chars : List UInt8) :
    ∃ s, putAll (start screen) chars = some s ∧ s.cursorX < 80 ∧ s.cursorY < 25 ∧
      s.cursorX = (chars.foldl Terminal.putc (.initial screen)).col ∧
      (chars.foldl Terminal.putc (.initial screen)).top + s.cursorY =
        (chars.foldl Terminal.putc (.initial screen)).row ∧
      ∀ r k, r < 25 → k < 80 → s.cell r k =
        (chars.foldl Terminal.putc (.initial screen)).cell
          ((chars.foldl Terminal.putc (.initial screen)).top + r) k := by
  have origin : (start screen).cursorY < 25 := by
    change 0 < 25
    omega
  obtain ⟨s, ended, tracks, inside⟩ := (tracks_start screen).putAll origin chars
  exact ⟨s, ended, tracks.column ▸ tracks.width, inside, tracks.column, tracks.row.symm, tracks.screen⟩

end OsKernel.Vga
