import OsKernel.Library.Bytes
import OsKernel.Library.Loops

/-
This file models the text console of `printk.c` over the 4000 bytes of the video memory.
-/

namespace OsKernel.Vga
open Library

def vgaWidth : Nat := 80

def vgaHeight : Nat := 25

def vgaColor : UInt8 := 0x07

/-- A character cell has two bytes. -/
def vgaBytes : Nat := 4000

/-- The video memory, the cursor, and the bytes sent to the ports of the cursor so far. -/
structure Console where
  video : Bytes
  cursorX : Nat
  cursorY : Nat
  ports : List (Nat × UInt8)

/-- A read outside the screen fails. -/
def peek (m : Bytes) (index : Nat) : Option UInt8 := fetch vgaBytes m index

/-- A write outside the screen fails. -/
def poke (m : Bytes) (index : Nat) (v : UInt8) : Option Bytes := put vgaBytes m index v

/-- A character is written together with its attribute. -/
def putCell (m : Bytes) (index : Nat) (c : UInt8) : Option Bytes := do
  let m ← poke m index c
  poke m (index + 1) vgaColor

/-- A cell is copied byte by byte. -/
def copyCell (m : Bytes) (src dst : Nat) : Option Bytes := do
  let c ← peek m src
  let m ← poke m dst c
  let a ← peek m (src + 1)
  poke m (dst + 1) a

/-- The cells of one row are copied to the row above. -/
def copyRow (row : Nat) (m : Bytes) : Option Bytes :=
  forLoop (fun col m => copyCell m ((row * vgaWidth + col) * 2) (((row - 1) * vgaWidth + col) * 2)) 0 vgaWidth m

/-- The last row is blanked. -/
def clearLast (m : Bytes) : Option Bytes :=
  forLoop (fun col m => putCell m (((vgaHeight - 1) * vgaWidth + col) * 2) 0x20) 0 vgaWidth m

/-- The screen moves up by one row. -/
def scroll (m : Bytes) : Option Bytes := (forLoop copyRow 1 (vgaHeight - 1) m).bind clearLast

/-- `move_cursor` sends the position to the hardware in two bytes. -/
def moveCursor (s : Console) : Console :=
  let pos := (s.cursorY * vgaWidth + s.cursorX) % 2 ^ 16
  { s with ports := s.ports ++
      [(0x3D4, 0x0F), (0x3D5, UInt8.ofNat (pos % 256)), (0x3D4, 0x0E), (0x3D5, UInt8.ofNat (pos / 256 % 256))] }

/-- A backspace moves to the left, or to the end of the row above. -/
def stepBack (s : Console) : Console :=
  if s.cursorX > 0 then { s with cursorX := s.cursorX - 1 }
  else if s.cursorY > 0 then { s with cursorY := s.cursorY - 1, cursorX := vgaWidth - 1 }
  else s

/-- The cursor moves to the right, or to the start of the row below. -/
def advance (s : Console) : Console :=
  if s.cursorX + 1 ≥ vgaWidth then { s with cursorX := 0, cursorY := s.cursorY + 1 }
  else { s with cursorX := s.cursorX + 1 }

/-- A character is written at the cursor. -/
def writeHere (s : Console) (c : UInt8) : Option Console := do
  let m ← putCell s.video ((s.cursorY * vgaWidth + s.cursorX) * 2) c
  return { s with video := m }

/-- The three kinds of characters: newline, backspace and all others. -/
def place (s : Console) (c : UInt8) : Option Console :=
  if c = 0x0A then some { s with cursorX := 0, cursorY := s.cursorY + 1 }
  else if c = 0x08 then writeHere (stepBack s) 0x20
  else (writeHere s c).map advance

/-- Below the last row the screen scrolls. -/
def scrollIfNeeded (s : Console) : Option Console :=
  if s.cursorY ≥ vgaHeight then (scroll s.video).map fun m => { s with video := m, cursorY := vgaHeight - 1 }
  else some s

/-- `vga_putc` places the character, scrolls and moves the cursor. -/
def vgaPutc (s : Console) (c : UInt8) : Option Console := do
  let s ← place s c
  let s ← scrollIfNeeded s
  return moveCursor s

/-- The characters are put in turn. -/
def putAll (s : Console) : List UInt8 → Option Console
  | [] => some s
  | c :: rest => (vgaPutc s c).bind fun s' => putAll s' rest

/-- The screen has any contents, and the cursor is at its top left cell. -/
def start (screen : Bytes) : Console := ⟨screen, 0, 0, []⟩

section Access

variable {m m₁ m₂ : Bytes} {index low middle high : Nat} {c : UInt8}

/-- A cell on the screen is written. -/
theorem putCell_eq (inside : index + 1 < vgaBytes) :
    putCell m index c = some (Function.update (Function.update m index c) (index + 1) vgaColor) := by
  have first : index < vgaBytes := by omega
  simp [putCell, poke, put_eq first, put_eq inside]

/-- A range holds what was one row below it. -/
def Shifted (m m' : Bytes) (low high : Nat) : Prop :=
  ∀ x, m' x = if low ≤ x ∧ x < high then m (x + 160) else m x

theorem shifted_refl : Shifted m m low low := by
  intro x
  rw [if_neg (by omega)]

/-- Adjacent ranges are shifted from the lower address on. -/
theorem Shifted.trans (first : Shifted m m₁ low middle) (second : Shifted m₁ m₂ middle high)
    (lower : low ≤ middle) (upper : middle ≤ high) : Shifted m m₂ low high := by
  intro x
  rw [second x]
  by_cases inner : middle ≤ x ∧ x < high
  · rw [if_pos inner, first (x + 160), if_neg (by omega), if_pos (by omega)]
  · rw [if_neg inner, first x]
    by_cases front : low ≤ x ∧ x < middle
    · rw [if_pos front, if_pos (by omega)]
    · rw [if_neg front, if_neg (by omega)]

/-- A copied cell is a shifted range of two bytes. -/
theorem copyCell_shifted (m : Bytes) (index : Nat) (inside : index + 161 < vgaBytes) :
    ∃ m', copyCell m (index + 160) index = some m' ∧ Shifted m m' index (index + 2) := by
  have source : index + 160 < vgaBytes := by omega
  have next : index + 160 + 1 < vgaBytes := by omega
  have target : index < vgaBytes := by omega
  have other : index + 1 < vgaBytes := by omega
  have apart : index + 160 + 1 ≠ index := by omega
  refine ⟨Function.update (Function.update m index (m (index + 160))) (index + 1) (m (index + 160 + 1)), ?_, ?_⟩
  · simp [copyCell, peek, poke, fetch_eq source, fetch_eq next, put_eq target, put_eq other,
      Function.update_of_ne apart]
  · intro x
    by_cases second : x = index + 1
    · rw [second, Function.update_self, if_pos (by omega), Nat.add_right_comm]
    · rw [Function.update_of_ne second]
      by_cases first : x = index
      · rw [first, Function.update_self, if_pos (by omega)]
      · rw [Function.update_of_ne first, if_neg (by omega)]

/-- The inner loop shifts one row. -/
theorem copyRow_shifted {row : Nat} (positive : 1 ≤ row) (last : row < vgaHeight) :
    ∃ m', copyRow row m = some m' ∧ Shifted m m' ((row - 1) * 160) (row * 160) := by
  rw [vgaHeight] at last
  obtain ⟨m', ended, copied⟩ := forLoop_invariant
    (fun col m => copyCell m ((row * vgaWidth + col) * 2) (((row - 1) * vgaWidth + col) * 2))
    (fun col m' => Shifted m m' ((row - 1) * 160) ((row - 1) * 160 + col * 2))
    0 vgaWidth m
    (by
      rw [Nat.zero_mul, Nat.add_zero]
      exact shifted_refl)
    (by
      intro col m₁ _ upper known
      rw [vgaWidth, Nat.zero_add] at upper
      have source : (row * vgaWidth + col) * 2 = (row - 1) * 160 + col * 2 + 160 := by
        rw [vgaWidth]
        omega
      have target : ((row - 1) * vgaWidth + col) * 2 = (row - 1) * 160 + col * 2 := by
        rw [vgaWidth]
        omega
      rw [source, target]
      obtain ⟨m₂, done, cell⟩ := copyCell_shifted m₁ ((row - 1) * 160 + col * 2)
        (by rw [vgaBytes]; omega)
      refine ⟨m₂, done, ?_⟩
      have longer := known.trans cell (by omega) (by omega)
      rwa [Nat.add_one_mul, ← Nat.add_assoc])
  refine ⟨m', ended, ?_⟩
  have width : (row - 1) * 160 + (0 + vgaWidth) * 2 = row * 160 := by
    rw [vgaWidth]
    omega
  rwa [width] at copied

/-- The outer loop shifts all rows but the last. -/
theorem copyRows_shifted : ∃ m', forLoop copyRow 1 (vgaHeight - 1) m = some m' ∧ Shifted m m' 0 3840 := by
  obtain ⟨m', ended, copied⟩ := forLoop_invariant copyRow (fun row m' => Shifted m m' 0 ((row - 1) * 160))
    1 (vgaHeight - 1) m shifted_refl
    (by
      intro row m₁ lower upper known
      obtain ⟨m₂, done, copied⟩ := copyRow_shifted (m := m₁) lower (by rw [vgaHeight] at upper ⊢; omega)
      exact ⟨m₂, done, known.trans copied (by omega) (by omega)⟩)
  exact ⟨m', ended, copied⟩

/-- The byte of a blank cell at an address. -/
def blankByte (x : Nat) : UInt8 := if x % 2 = 0 then 0x20 else vgaColor

/-- The last loop blanks the last row. -/
theorem clearLast_eq : ∃ m', clearLast m = some m' ∧
    ∀ x, m' x = if 3840 ≤ x ∧ x < 4000 then blankByte x else m x := by
  obtain ⟨m', ended, cleared⟩ := forLoop_invariant
    (fun col m => putCell m (((vgaHeight - 1) * vgaWidth + col) * 2) 0x20)
    (fun col m' => ∀ x, m' x = if 3840 ≤ x ∧ x < 3840 + col * 2 then blankByte x else m x)
    0 vgaWidth m
    (by
      intro x
      rw [if_neg (by omega)])
    (by
      intro col m₁ _ upper known
      rw [vgaWidth, Nat.zero_add] at upper
      have target : ((vgaHeight - 1) * vgaWidth + col) * 2 = 3840 + col * 2 := by
        rw [vgaHeight, vgaWidth]
        omega
      rw [target]
      refine ⟨_, putCell_eq (by rw [vgaBytes]; omega), ?_⟩
      intro x
      by_cases second : x = 3840 + col * 2 + 1
      · rw [second, Function.update_self, if_pos (by omega), blankByte, if_neg (by omega)]
      · rw [Function.update_of_ne second]
        by_cases first : x = 3840 + col * 2
        · rw [first, Function.update_self, if_pos (by omega), blankByte, if_pos (by omega)]
        · rw [Function.update_of_ne first, known x]
          by_cases inner : 3840 ≤ x ∧ x < 3840 + col * 2
          · rw [if_pos inner, if_pos (by omega)]
          · rw [if_neg inner, if_neg (by omega)])
  exact ⟨m', ended, cleared⟩

/-- A scroll moves every row up and leaves a blank row at the bottom. -/
theorem scroll_eq : ∃ m', scroll m = some m' ∧
    ∀ x, x < 4000 → m' x = if x < 3840 then m (x + 160) else blankByte x := by
  obtain ⟨m₁, copied, shifted⟩ := copyRows_shifted (m := m)
  obtain ⟨m₂, cleared, blank⟩ := clearLast_eq (m := m₁)
  have ended : scroll m = some m₂ := by
    rw [scroll, copied, Option.bind_some, cleared]
  refine ⟨m₂, ended, ?_⟩
  intro x inside
  rw [blank x]
  by_cases upper : x < 3840
  · rw [if_neg (by omega), shifted x, if_pos (by omega), if_pos upper]
  · rw [if_pos (by omega), if_neg upper]

end Access

end OsKernel.Vga
