import OsKernel.Library.Bytes
import OsKernel.Library.Loops
import OsKernel.Library.Runs

/-
This file models the keyboard driver of `keyboard.c`, whose interrupt handler and reader share one buffer.
-/

namespace OsKernel.Keyboard
open Library

def inputBufferSize : Nat := 256

/-- The characters of the scancodes 0 to 58, where zero stands for no character. -/
def asciiTable : List UInt8 :=
  [0, 27, 49, 50, 51, 52, 53, 54, 55, 56, 57, 48, 45, 61, 8,
   9, 113, 119, 101, 114, 116, 121, 117, 105, 111, 112, 91, 93, 10,
   0, 97, 115, 100, 102, 103, 104, 106, 107, 108, 59, 39, 96,
   0, 92, 122, 120, 99, 118, 98, 110, 109, 44, 46, 47, 0,
   42, 0, 32, 0]

/-- `scancode_to_ascii` has 128 entries, and those that are not listed are zero. -/
def scancodeToAscii (scancode : UInt8) : UInt8 := asciiTable.getD scancode.toNat 0

/-- The buffer, its index, and the characters sent to the screen. -/
structure Device where
  inputBuffer : Bytes
  bufferIndex : Nat
  screen : List UInt8

/-- The handler announces every interrupt. -/
def banner : List UInt8 := "first we get it.\n".toList.map fun c => UInt8.ofNat c.toNat

/-- A typed character is stored, and a newline resets the index. -/
def storeKey (k : Device) (c : UInt8) : Option Device :=
  if c = 0x0A then
    (put inputBufferSize k.inputBuffer k.bufferIndex 0).map fun b => { k with inputBuffer := b, bufferIndex := 0 }
  else if k.bufferIndex < inputBufferSize - 1 then
    (put inputBufferSize k.inputBuffer k.bufferIndex c).map fun b =>
      { k with inputBuffer := b, bufferIndex := k.bufferIndex + 1 }
  else some k

/-- `keyboard_handler` ignores releases and keys without a character, and echoes all others. -/
def keyboardHandler (k : Device) (scancode : UInt8) : Option Device :=
  let k := { k with screen := k.screen ++ banner }
  if scancode &&& 0x80 ≠ 0 then some k
  else
    let c := scancodeToAscii scancode
    if c = 0 then some k else storeKey { k with screen := k.screen ++ [c] } c

/-- The loop of `get_key` moves the buffer to the front by one. -/
def shiftBuffer (k : Device) : Option Bytes :=
  forLoop (fun i b => (fetch inputBufferSize b (i + 1)).bind fun c => put inputBufferSize b i c) 0
    (k.bufferIndex - 1) k.inputBuffer

/-- `get_key` waits on an empty buffer, and otherwise takes its first character. -/
def getKey (k : Device) : Option (UInt8 × Device) :=
  if k.bufferIndex = 0 then none
  else (fetch inputBufferSize k.inputBuffer 0).bind fun c =>
    (shiftBuffer k).map fun b => (c, { k with inputBuffer := b, bufferIndex := k.bufferIndex - 1 })

/-- The non-zero character that a scancode types. -/
def typedBy (scancode : UInt8) : List UInt8 :=
  if scancode &&& 0x80 ≠ 0 ∨ scancodeToAscii scancode = 0 then [] else [scancodeToAscii scancode]

/-- The driver with the characters typed and the characters returned so far. -/
structure Session where
  device : Device
  typed : List UInt8
  returned : List UInt8

/-- A key is pressed or a character is read. -/
inductive Op
  | press (scancode : UInt8)
  | getKey
  deriving DecidableEq

/-- A handler or a reader runs as one step, and at most 255 typed characters wait to be read. -/
inductive Step : Session → Op → Session → Prop
  | press {s : Session} {scancode : UInt8} {k : Device} (handled : keyboardHandler s.device scancode = some k)
      (pending : (s.typed ++ typedBy scancode).length ≤ s.returned.length + 255) :
      Step s (.press scancode) ⟨k, s.typed ++ typedBy scancode, s.returned⟩
  | getKey {s : Session} {c : UInt8} {k : Device} (read : Keyboard.getKey s.device = some (c, k)) :
      Step s .getKey ⟨k, s.typed, s.returned ++ [c]⟩

/-- The buffer has any contents, and the index is zero. -/
def start (contents : Bytes) : Session := ⟨⟨contents, 0, []⟩, [], []⟩

/-- The characters in the buffer, the oldest first. -/
def buffered (k : Device) : List UInt8 := (List.range k.bufferIndex).map k.inputBuffer

section Device

variable {k k' : Device} {c : UInt8} {scancode : UInt8}

theorem length_buffered : (buffered k).length = k.bufferIndex := by
  simp [buffered]

/-- The loop moves every stored character but the first. -/
theorem shiftBuffer_eq (bound : k.bufferIndex ≤ 255) :
    ∃ b, shiftBuffer k = some b ∧ ∀ i, i < k.bufferIndex - 1 → b i = k.inputBuffer (i + 1) := by
  obtain ⟨b, ended, moved⟩ := forLoop_invariant
    (fun i b => (fetch inputBufferSize b (i + 1)).bind fun c => put inputBufferSize b i c)
    (fun n b => ∀ i, b i = if i < n then k.inputBuffer (i + 1) else k.inputBuffer i)
    0 (k.bufferIndex - 1) k.inputBuffer
    (by
      intro i
      rw [if_neg (Nat.not_lt_zero i)])
    (by
      intro n b _ upper known
      have next : n + 1 < inputBufferSize := by
        rw [inputBufferSize]
        omega
      have here : n < inputBufferSize := by omega
      refine ⟨Function.update b n (b (n + 1)), ?_, ?_⟩
      · simp [fetch_eq next, put_eq here]
      · intro i
        by_cases same : i = n
        · rw [same, Function.update_self, known, if_neg (by omega), if_pos (by omega)]
        · rw [Function.update_of_ne same, known]
          by_cases before : i < n
          · rw [if_pos before, if_pos (by omega)]
          · rw [if_neg before, if_neg (by omega)])
  refine ⟨b, ended, ?_⟩
  intro i inside
  rw [moved, if_pos (by omega)]

/-- A reader takes the oldest character of a buffer that is not empty. -/
theorem getKey_spec (bound : k.bufferIndex ≤ 255) (waiting : 0 < k.bufferIndex) :
    ∃ c k', getKey k = some (c, k') ∧ buffered k = c :: buffered k' ∧ k'.bufferIndex + 1 = k.bufferIndex := by
  obtain ⟨b, ended, moved⟩ := shiftBuffer_eq bound
  have first : (0 : Nat) < inputBufferSize := by decide
  refine ⟨k.inputBuffer 0, { k with inputBuffer := b, bufferIndex := k.bufferIndex - 1 }, ?_, ?_, ?_⟩
  · rw [getKey, if_neg (by omega), fetch_eq first, Option.bind_some, ended]
    rfl
  · obtain ⟨n, size⟩ : ∃ n, k.bufferIndex = n + 1 := ⟨k.bufferIndex - 1, by omega⟩
    simp only [buffered, size, List.range_succ_eq_map, List.map_cons, List.map_map, Nat.add_sub_cancel]
    congr 1
    apply List.map_congr_left
    intro i member
    rw [List.mem_range] at member
    exact (moved i (by omega)).symm
  · simp only
    omega

/-- A character other than a newline goes to the end of a buffer that is not full. -/
theorem storeKey_spec (other : c ≠ 0x0A) (room : k.bufferIndex < 255) :
    ∃ k', storeKey k c = some k' ∧ buffered k' = buffered k ++ [c] ∧ k'.bufferIndex = k.bufferIndex + 1 := by
  have inside : k.bufferIndex < inputBufferSize := by
    rw [inputBufferSize]
    omega
  refine ⟨{ k with inputBuffer := Function.update k.inputBuffer k.bufferIndex c,
                   bufferIndex := k.bufferIndex + 1 }, ?_, ?_, rfl⟩
  · rw [storeKey, if_neg other, if_pos (by rw [inputBufferSize]; omega), put_eq inside]
    rfl
  · simp only [buffered, List.range_succ, List.map_append, List.map_cons, List.map_nil, Function.update_self]
    congr 1
    apply List.map_congr_left
    intro i member
    rw [List.mem_range] at member
    exact Function.update_of_ne (by omega) _ _

/-- A scancode types nothing, or it types the character that is stored. -/
theorem keyboardHandler_eq (k : Device) (scancode : UInt8) : ∃ shown, (typedBy scancode = [] ∧
      keyboardHandler k scancode = some { k with screen := shown }) ∨
    (typedBy scancode = [scancodeToAscii scancode] ∧
      keyboardHandler k scancode = storeKey { k with screen := shown } (scancodeToAscii scancode)) := by
  rw [typedBy, keyboardHandler]
  by_cases released : scancode &&& 0x80 ≠ 0
  · refine ⟨k.screen ++ banner, .inl ⟨if_pos (.inl released), ?_⟩⟩
    rw [if_pos released]
  · by_cases silent : scancodeToAscii scancode = 0
    · refine ⟨k.screen ++ banner, .inl ⟨if_pos (.inr silent), ?_⟩⟩
      rw [if_neg released, if_pos silent]
    · refine ⟨k.screen ++ banner ++ [scancodeToAscii scancode], .inr ⟨if_neg (by tauto), ?_⟩⟩
      rw [if_neg released, if_neg silent]

/-- A newline empties the buffer and is not stored. -/
theorem storeKey_newline (bound : k.bufferIndex ≤ 255) :
    ∃ k', storeKey k 0x0A = some k' ∧ buffered k' = [] ∧ k'.bufferIndex = 0 := by
  have inside : k.bufferIndex < inputBufferSize := by
    rw [inputBufferSize]
    omega
  refine ⟨{ k with inputBuffer := Function.update k.inputBuffer k.bufferIndex 0, bufferIndex := 0 }, ?_, rfl, rfl⟩
  rw [storeKey, if_pos rfl, put_eq inside]
  rfl

/-- A full buffer drops the character. -/
theorem storeKey_full (other : c ≠ 0x0A) (full : 255 ≤ k.bufferIndex) : storeKey k c = some k := by
  rw [storeKey, if_neg other, if_neg (by rw [inputBufferSize]; omega)]

/-- The handler keeps the buffer, empties it on a newline, drops the character, or appends it. -/
theorem keyboardHandler_spec (bound : k.bufferIndex ≤ 255) (scancode : UInt8) :
    ∃ k', keyboardHandler k scancode = some k' ∧ k'.bufferIndex ≤ 255 ∧
      ((typedBy scancode = [] ∧ buffered k' = buffered k) ∨
       (typedBy scancode = [0x0A] ∧ buffered k' = []) ∨
       ∃ c, c ≠ 0x0A ∧ typedBy scancode = [c] ∧
         ((255 ≤ k.bufferIndex ∧ buffered k' = buffered k) ∨ buffered k' = buffered k ++ [c])) := by
  obtain ⟨shown, ⟨nothing, handled⟩ | ⟨typed, handled⟩⟩ := keyboardHandler_eq k scancode
  · exact ⟨_, handled, bound, .inl ⟨nothing, rfl⟩⟩
  · rw [handled]
    by_cases newline : scancodeToAscii scancode = 0x0A
    · rw [newline] at typed ⊢
      obtain ⟨k', stored, empty, zero⟩ := storeKey_newline (k := { k with screen := shown }) bound
      exact ⟨k', stored, by omega, .inr (.inl ⟨typed, empty⟩)⟩
    · by_cases room : k.bufferIndex < 255
      · obtain ⟨k', stored, appended, index⟩ := storeKey_spec (k := { k with screen := shown }) newline room
        simp only at index
        exact ⟨k', stored, by omega, .inr (.inr ⟨_, newline, typed, .inr appended⟩)⟩
      · refine ⟨_, storeKey_full newline (Nat.le_of_not_lt room), bound, ?_⟩
        exact .inr (.inr ⟨_, newline, typed, .inl ⟨Nat.le_of_not_lt room, rfl⟩⟩)

end Device

/-- The scancode of the Enter key. -/
def enter : UInt8 := 0x1C

/-- Only the Enter key types a newline. -/
theorem typedBy_newline {scancode : UInt8} (newline : typedBy scancode = [0x0A]) : scancode = enter := by
  have table : ∀ n : Fin 256, typedBy (UInt8.ofNat n) = [0x0A] → n = 28 := by decide +kernel
  have bound : scancode.toNat < 256 := scancode.toNat_lt
  have code : UInt8.ofNat scancode.toNat = scancode := UInt8.ofNat_toNat
  have index := congrArg Fin.val (table ⟨scancode.toNat, bound⟩ (by rw [code]; exact newline))
  rw [← code]
  exact congrArg UInt8.ofNat index

/-- Nothing typed is lost, repeated or reordered: it was returned or waits in the buffer. -/
def Delivered (s : Session) : Prop := s.returned ++ buffered s.device = s.typed

/-- The buffer is in bounds and holds no newline, and without the Enter key everything is delivered. -/
structure Sound (ops : List Op) (s : Session) : Prop where
  bound : s.device.bufferIndex ≤ 255
  stored : 0x0A ∉ s.returned ++ buffered s.device
  lost : Op.press enter ∈ ops → 0x0A ∈ s.typed
  delivered : Op.press enter ∉ ops → Delivered s

section Runs

variable {s s' : Session} {ops : List Op}

theorem sound_start (contents : Bytes) : Sound [] (start contents) where
  bound := Nat.zero_le _
  stored := List.not_mem_nil
  lost := fun member => absurd member List.not_mem_nil
  delivered := fun _ => rfl

/-- A handler keeps the session sound. -/
theorem Sound.press {k : Device} {scancode : UInt8} (sound : Sound ops s)
    (handled : keyboardHandler s.device scancode = some k)
    (pending : (s.typed ++ typedBy scancode).length ≤ s.returned.length + 255) :
    Sound (ops ++ [.press scancode]) ⟨k, s.typed ++ typedBy scancode, s.returned⟩ := by
  obtain ⟨k', found, bound, cases⟩ := keyboardHandler_spec sound.bound scancode
  obtain rfl : k' = k := Option.some.inj (found.symm.trans handled)
  have stored := sound.stored
  refine ⟨bound, ?_, ?_, ?_⟩
  · rcases cases with ⟨_, kept⟩ | ⟨_, empty⟩ | ⟨c, other, _, ⟨_, kept⟩ | appended⟩
    · simp only [kept]
      exact stored
    · simp only [empty, List.append_nil]
      exact fun member => stored (List.mem_append_left _ member)
    · simp only [kept]
      exact stored
    · simp only [appended, ← List.append_assoc]
      rw [List.mem_append, List.mem_singleton, not_or]
      exact ⟨stored, other.symm⟩
  · intro member
    rcases List.mem_append.mp member with earlier | now
    · exact List.mem_append_left _ (sound.lost earlier)
    · obtain rfl : enter = scancode := by simpa using now
      exact List.mem_append_right _ (by decide)
  · intro absent
    rw [List.mem_append, List.mem_singleton, not_or] at absent
    have before : s.returned ++ buffered s.device = s.typed := sound.delivered absent.1
    have length : s.returned.length + s.device.bufferIndex = s.typed.length := by
      rw [← before, List.length_append, length_buffered]
    change s.returned ++ buffered k' = s.typed ++ typedBy scancode
    rcases cases with ⟨nothing, kept⟩ | ⟨newline, _⟩ | ⟨c, other, typed, ⟨full, _⟩ | appended⟩
    · rw [nothing, kept, before, List.append_nil]
    · exact absurd (congrArg Op.press (typedBy_newline newline)).symm absent.2
    -- A full buffer means that 255 characters already wait.
    · rw [typed, List.length_append, List.length_singleton] at pending
      omega
    · rw [typed, appended, ← before, List.append_assoc]

/-- A reader keeps the session sound. -/
theorem Sound.getKey {c : UInt8} {k : Device} (sound : Sound ops s)
    (read : Keyboard.getKey s.device = some (c, k)) :
    Sound (ops ++ [.getKey]) ⟨k, s.typed, s.returned ++ [c]⟩ := by
  have waiting : 0 < s.device.bufferIndex := by
    rw [Nat.pos_iff_ne_zero]
    intro empty
    rw [Keyboard.getKey, if_pos empty] at read
    cases read
  obtain ⟨c', k', found, front, index⟩ := getKey_spec sound.bound waiting
  obtain ⟨rfl, rfl⟩ := Prod.mk.inj (Option.some.inj (found.symm.trans read))
  have moved : s.returned ++ [c'] ++ buffered k' = s.returned ++ buffered s.device := by
    rw [front, List.append_assoc]
    rfl
  have bound := sound.bound
  refine ⟨by simp only; omega, ?_, ?_, ?_⟩
  · simp only [moved]
    exact sound.stored
  · intro member
    exact sound.lost (by simpa using member)
  · intro absent
    change s.returned ++ [c'] ++ buffered k' = s.typed
    rw [moved]
    exact sound.delivered fun member => absent (List.mem_append_left _ member)

/-- Every run is sound. -/
theorem run_sound {contents : Bytes} (run : Run Step (start contents) ops s) : Sound ops s := by
  apply run.invariant Sound (sound_start contents)
  intro _ _ _ _ _ sound taken
  cases taken with
  | press handled pending => exact sound.press handled pending
  | getKey read => exact sound.getKey read

end Runs

/-- In every run, what was typed is delivered in order if and only if the Enter key was never pressed. -/
theorem keyboard_run_delivers {contents : Bytes} {ops : List Op} {s : Session}
    (run : Run Step (start contents) ops s) :
    (Op.press enter ∉ ops → s.returned <+: s.typed) ∧ (Delivered s ↔ Op.press enter ∉ ops) := by
  have sound := run_sound run
  refine ⟨fun absent => ⟨_, sound.delivered absent⟩, ?_, sound.delivered⟩
  intro delivered member
  apply sound.stored
  rw [delivered]
  exact sound.lost member

/-- The next session of a step, for samples. -/
def next (s : Session) : Op → Option Session
  | .press scancode =>
      if (s.typed ++ typedBy scancode).length ≤ s.returned.length + 255 then
        (keyboardHandler s.device scancode).map fun k => ⟨k, s.typed ++ typedBy scancode, s.returned⟩
      else none
  | .getKey => (getKey s.device).map fun r => ⟨r.2, s.typed, s.returned ++ [r.1]⟩

theorem step_of_next {s s' : Session} {op : Op} (taken : next s op = some s') : Step s op s' := by
  cases op with
  | press scancode =>
      rw [next] at taken
      split at taken
      next pending =>
          obtain ⟨k, handled, rfl⟩ := Option.map_eq_some_iff.mp taken
          exact .press handled pending
      next => cases taken
  | getKey =>
      obtain ⟨⟨c, k⟩, read, rfl⟩ := Option.map_eq_some_iff.mp taken
      exact .getKey read

/-- The sample types two letters and reads the first. -/
theorem keyboard_run_delivers_sample : ∃ s,
    Run Step (start fun _ => 0) [.press 0x1E, .press 0x30, .getKey] s ∧ s.typed = [97, 98] ∧ s.returned = [97] ∧
    s.returned <+: s.typed ∧ Delivered s := by
  have answer : (replay next (start fun _ => 0) [.press 0x1E, .press 0x30, .getKey]).map
      (fun s => (s.typed, s.returned)) = some ([97, 98], [97]) := by decide +kernel
  obtain ⟨s, replayed, same⟩ := Option.map_eq_some_iff.mp answer
  obtain ⟨typed, returned⟩ := Prod.mk.inj same
  have run := run_of_replay (fun _ _ _ => step_of_next) replayed
  obtain ⟨ordered, exact⟩ := keyboard_run_delivers run
  exact ⟨s, run, typed, returned, ordered (by decide), exact.mpr (by decide)⟩

/-- The line before Enter and its newline never reach the reader. -/
theorem enter_loses_line : ∃ s,
    Run Step (start fun _ => 0) [.press 0x1E, .press enter, .press 0x30, .getKey] s ∧ s.typed = [97, 10, 98] ∧
    s.returned = [98] ∧ ¬ s.returned <+: s.typed := by
  have answer : (replay next (start fun _ => 0) [.press 0x1E, .press enter, .press 0x30, .getKey]).map
      (fun s => (s.typed, s.returned)) = some ([97, 10, 98], [98]) := by decide +kernel
  obtain ⟨s, replayed, same⟩ := Option.map_eq_some_iff.mp answer
  obtain ⟨typed, returned⟩ := Prod.mk.inj same
  have run := run_of_replay (fun _ _ _ => step_of_next) replayed
  refine ⟨s, run, typed, returned, ?_⟩
  rw [typed, returned]
  decide

end OsKernel.Keyboard
