import OsKernel.Drivers.Keyboard

/-
This file lets the keyboard interrupt come between any two accesses that `get_key` makes to the static variables.
The Makefile asks for no optimization, so every access of the C text is one load or one store.
-/

namespace OsKernel.Keyboard
open Library

/-- The static variables with a C `int` as the index, and the characters sent to the screen. -/
structure Shared where
  inputBuffer : Bytes
  bufferIndex : Int
  screen : List UInt8

/-- A device is a state whose index is not negative. -/
def Device.shared (k : Device) : Shared := ⟨k.inputBuffer, k.bufferIndex, k.screen⟩

/-- A write outside the buffer is undefined. -/
def Shared.put (s : Shared) (i : Int) (c : UInt8) : Option Shared :=
  if 0 ≤ i then (Library.put inputBufferSize s.inputBuffer i.toNat c).map fun b => { s with inputBuffer := b }
  else none

/-- A typed character is stored at the index, and a newline resets the index. -/
def Shared.storeKey (s : Shared) (c : UInt8) : Option Shared :=
  if c = 0x0A then (s.put s.bufferIndex 0).map fun s => { s with bufferIndex := 0 }
  else if s.bufferIndex < inputBufferSize - 1 then
    (s.put s.bufferIndex c).map fun s => { s with bufferIndex := s.bufferIndex + 1 }
  else some s

/-- `keyboard_handler` over an index of any sign. -/
def Shared.keyboardHandler (s : Shared) (scancode : UInt8) : Option Shared :=
  let s := { s with screen := s.screen ++ banner }
  if scancode &&& 0x80 ≠ 0 then some s
  else
    let c := scancodeToAscii scancode
    if c = 0 then some s else { s with screen := s.screen ++ [c] }.storeKey c

/-- A signed subtraction below the least `int` is undefined. -/
def decrement (n : Int) : Option Int := if -2 ^ 31 < n then some (n - 1) else none

/-- Where `get_key` stands before its next access, with the locals that it holds there. -/
inductive Place
  | outside
  | waiting
  | taking
  | testing (c : UInt8) (i : Nat)
  | loading (c : UInt8) (i : Nat)
  | storing (c : UInt8) (i : Nat) (x : UInt8)
  | leaving (c : UInt8)
  | writing (c : UInt8) (n : Int)
  deriving DecidableEq

/-- What the outside sees of a step. -/
inductive Event
  | press (scancode : UInt8)
  | read (c : UInt8)
  deriving DecidableEq

/-- The last access of `get_key` returns the character. -/
def Place.event : Place → Option Event
  | .writing c _ => some (.read c)
  | _ => none

structure Interleaved where
  shared : Shared
  place : Place

/-- `get_key` makes its next access, and `buffer_index--` is a load and a store. -/
def advance (s : Shared) : Place → Option Interleaved
  | .outside => some ⟨s, .waiting⟩
  | .waiting => some ⟨s, if s.bufferIndex = 0 then .waiting else .taking⟩
  | .taking => (fetch inputBufferSize s.inputBuffer 0).map fun c => ⟨s, .testing c 0⟩
  | .testing c i =>
      (decrement s.bufferIndex).map fun (last : Int) => ⟨s, if (i : Int) < last then .loading c i else .leaving c⟩
  | .loading c i => (fetch inputBufferSize s.inputBuffer (i + 1)).map fun x => ⟨s, .storing c i x⟩
  | .storing c i x =>
      (put inputBufferSize s.inputBuffer i x).map fun b => ⟨{ s with inputBuffer := b }, .testing c (i + 1)⟩
  | .leaving c => some ⟨s, .writing c s.bufferIndex⟩
  | .writing _ n => (decrement n).map fun n => ⟨{ s with bufferIndex := n }, .outside⟩

/-- An interrupt gate runs the whole handler between two accesses of `get_key`. -/
inductive Interleaved.Step : Interleaved → Option Event → Interleaved → Prop
  | press {s s' : Shared} {place : Place} {scancode : UInt8} (handled : s.keyboardHandler scancode = some s') :
      Step ⟨s, place⟩ (some (.press scancode)) ⟨s', place⟩
  | access {s : Shared} {place : Place} {t : Interleaved} (taken : advance s place = some t) :
      Step ⟨s, place⟩ place.event t

/-- `get_key` has found a character and has not returned it. -/
def Place.Reading : Place → Prop
  | .outside | .waiting => False
  | _ => True

/-- `get_key` has found a character and has not loaded the index for its decrement. -/
def Place.Moving : Place → Prop
  | .outside | .waiting | .writing _ _ => False
  | _ => True

instance : DecidablePred Place.Moving
  | .outside | .waiting | .writing _ _ => .isFalse id
  | .taking | .testing _ _ | .loading _ _ | .storing _ _ _ | .leaving _ => .isTrue trivial

/-- The loop of `get_key` has ended and the index is not yet stored. -/
def Place.Finishing : Place → Prop
  | .leaving _ | .writing _ _ => True
  | _ => False

section Handler

variable {k : Device} {s : Shared} {c scancode : UInt8}

theorem put_shared (k : Device) (c : UInt8) : k.shared.put k.bufferIndex c =
    (put inputBufferSize k.inputBuffer k.bufferIndex c).map fun b => { k.shared with inputBuffer := b } := by
  rw [Shared.put, if_pos (Int.natCast_nonneg _), Int.toNat_natCast]
  rfl

theorem storeKey_shared (k : Device) (c : UInt8) : k.shared.storeKey c = (storeKey k c).map Device.shared := by
  have index : k.shared.bufferIndex = k.bufferIndex := rfl
  rw [Shared.storeKey, storeKey, index]
  by_cases newline : c = 0x0A
  · rw [if_pos newline, if_pos newline, put_shared, Option.map_map, Option.map_map]
    rfl
  · rw [if_neg newline, if_neg newline]
    by_cases room : k.bufferIndex < inputBufferSize - 1
    · rw [if_pos room, if_pos (by rw [inputBufferSize] at *; omega), put_shared, Option.map_map, Option.map_map]
      rfl
    · rw [if_neg room, if_neg (by rw [inputBufferSize] at *; omega)]
      rfl

/-- On an index that is not negative the handler is the handler of the device. -/
theorem keyboardHandler_shared (k : Device) (scancode : UInt8) :
    k.shared.keyboardHandler scancode = (keyboardHandler k scancode).map Device.shared := by
  rw [Shared.keyboardHandler, keyboardHandler]
  by_cases released : scancode &&& 0x80 ≠ 0
  · rw [if_pos released, if_pos released]
    rfl
  · by_cases silent : scancodeToAscii scancode = 0
    · rw [if_neg released, if_neg released, if_pos silent, if_pos silent]
      rfl
    · rw [if_neg released, if_neg released, if_neg silent, if_neg silent]
      exact storeKey_shared { k with screen := k.screen ++ banner ++ [scancodeToAscii scancode] } _

/-- The handler echoes what a scancode types and stores it. -/
theorem keyboardHandler_typed (k : Device) (scancode : UInt8) :
    (typedBy scancode = [] ∧ keyboardHandler k scancode = some { k with screen := k.screen ++ banner }) ∨
    ∃ c, typedBy scancode = [c] ∧
      keyboardHandler k scancode = storeKey { k with screen := k.screen ++ banner ++ [c] } c := by
  rw [typedBy, keyboardHandler]
  by_cases released : scancode &&& 0x80 ≠ 0
  · rw [if_pos (.inl released), if_pos released]
    exact .inl ⟨rfl, rfl⟩
  · by_cases silent : scancodeToAscii scancode = 0
    · rw [if_pos (.inr silent), if_neg released, if_pos silent]
      exact .inl ⟨rfl, rfl⟩
    · rw [if_neg (by tauto), if_neg released, if_neg silent]
      exact .inr ⟨_, rfl, rfl⟩

/-- A key that types a character writes in front of a buffer whose index is negative. -/
theorem keyboardHandler_negative (negative : s.bufferIndex < 0) (typing : typedBy scancode ≠ []) :
    s.keyboardHandler scancode = none := by
  rw [typedBy] at typing
  split at typing
  next => exact absurd rfl typing
  next typed =>
      rw [not_or] at typed
      rw [Shared.keyboardHandler, if_neg typed.1, if_neg typed.2, Shared.storeKey]
      have before : ∀ screen, Shared.put { s with screen := screen } s.bufferIndex = fun _ => none := by
        intro screen
        funext c
        rw [Shared.put, if_neg (by omega)]
      split
      · rw [before]
        rfl
      · rw [if_pos (by rw [inputBufferSize]; simp only; omega), before]
        rfl

end Handler

/-- What each place has found out about an index `n`. -/
def Place.Fits (n : Nat) : Place → Prop
  | .outside | .waiting => True
  | .taking | .leaving _ => 0 < n
  | .testing _ i => i < n
  | .loading _ i | .storing _ i _ => i + 1 < n
  | .writing _ m => 0 < m ∧ m ≤ 255

/-- The index is in its range, and `get_key` stays inside the buffer. -/
def Interleaved.Bounded (s : Interleaved) : Prop :=
  ∃ k : Device, s.shared = k.shared ∧ k.bufferIndex ≤ 255 ∧ s.place.Fits k.bufferIndex

/-- Neither a key nor the next access of `get_key` is undefined. -/
def Interleaved.Defined (s : Interleaved) : Prop :=
  (∀ scancode, (s.shared.keyboardHandler scancode).isSome) ∧ (advance s.shared s.place).isSome

/-- A step in which Enter is not pressed while `get_key` moves the buffer. -/
def Interleaved.Careful (s : Interleaved) (e : Option Event) (s' : Interleaved) : Prop :=
  s.Step e s' ∧ (e = some (.press enter) → ¬ s.place.Moving)

section Bounds

variable {s s' : Shared} {t t' : Interleaved} {place : Place} {k : Device} {scancode c : UInt8} {e : Option Event}
  {n m : Nat}

/-- More characters leave every place where it is. -/
theorem Place.Fits.mono (fits : place.Fits n) (more : n ≤ m) : place.Fits m := by
  cases place <;> simp only [Place.Fits] at * <;> omega

/-- Where the buffer is not moved, every index is right. -/
theorem Place.Fits.of_not_moving (fits : place.Fits n) (away : ¬ place.Moving) : place.Fits m := by
  cases place <;> simp_all [Place.Fits, Place.Moving]

/-- A key other than Enter never takes characters away. -/
theorem keyboardHandler_grows (bound : k.bufferIndex ≤ 255) (scancode : UInt8) :
    ∃ k', keyboardHandler k scancode = some k' ∧ k'.bufferIndex ≤ 255 ∧
      (scancode ≠ enter → k.bufferIndex ≤ k'.bufferIndex) := by
  obtain ⟨k', handled, inside, cases⟩ := keyboardHandler_spec bound scancode
  refine ⟨k', handled, inside, ?_⟩
  intro other
  have same : k'.bufferIndex = (buffered k').length := length_buffered.symm
  rcases cases with ⟨_, kept⟩ | ⟨newline, _⟩ | ⟨c, _, _, ⟨_, kept⟩ | appended⟩
  · rw [same, kept, length_buffered]
  · exact absurd (typedBy_newline newline) other
  · rw [same, kept, length_buffered]
  · rw [same, appended, List.length_append, length_buffered]
    omega

/-- Inside its bounds `get_key` makes a defined access and stays inside them. -/
theorem Interleaved.Bounded.advance (bounded : Interleaved.Bounded ⟨s, place⟩) :
    ∃ t, Keyboard.advance s place = some t ∧ t.Bounded := by
  obtain ⟨k, rfl, bound, fits⟩ := bounded
  have index : k.shared.bufferIndex = k.bufferIndex := rfl
  cases place with
  | outside => exact ⟨_, rfl, k, rfl, bound, trivial⟩
  | waiting =>
      refine ⟨_, rfl, k, rfl, bound, ?_⟩
      rw [index]
      split
      · exact trivial
      · simp only [Place.Fits]
        omega
  | taking =>
      have inside : 0 < inputBufferSize := by decide
      rw [Keyboard.advance, fetch_eq inside]
      exact ⟨_, rfl, k, rfl, bound, fits⟩
  | testing c i =>
      rw [Keyboard.advance, decrement, index, if_pos (by omega)]
      refine ⟨_, rfl, k, rfl, bound, ?_⟩
      simp only [Place.Fits] at fits
      show Place.Fits _ (if _ then Place.loading c i else Place.leaving c)
      split <;> simp only [Place.Fits] <;> omega
  | loading c i =>
      simp only [Place.Fits] at fits
      have inside : i + 1 < inputBufferSize := by
        rw [inputBufferSize]
        omega
      rw [Keyboard.advance, fetch_eq inside]
      exact ⟨_, rfl, k, rfl, bound, fits⟩
  | storing c i x =>
      simp only [Place.Fits] at fits
      have inside : i < inputBufferSize := by
        rw [inputBufferSize]
        omega
      rw [Keyboard.advance, put_eq inside]
      exact ⟨_, rfl, { k with inputBuffer := Function.update k.inputBuffer i x }, rfl, bound, fits⟩
  | leaving c =>
      simp only [Place.Fits] at fits
      exact ⟨_, rfl, k, rfl, bound, by simp only [Place.Fits, index]; omega⟩
  | writing c m =>
      simp only [Place.Fits] at fits
      obtain ⟨m, rfl⟩ : ∃ j : Nat, m = (j : Int) + 1 := ⟨(m - 1).toNat, by omega⟩
      rw [Keyboard.advance, decrement, if_pos (by omega)]
      refine ⟨_, rfl, { k with bufferIndex := m }, ?_, by simp only; omega, trivial⟩
      simp only [Device.shared, Int.add_sub_cancel]

theorem Interleaved.Bounded.defined (bounded : t.Bounded) : t.Defined := by
  obtain ⟨s, place⟩ := t
  obtain ⟨next, taken, _⟩ := bounded.advance
  obtain ⟨k, same, bound, _⟩ := bounded
  refine ⟨?_, by rw [taken]; rfl⟩
  intro scancode
  obtain ⟨k', handled, _⟩ := keyboardHandler_grows bound scancode
  rw [same, keyboardHandler_shared, handled]
  rfl

theorem Interleaved.Bounded.step (bounded : t.Bounded) (careful : t.Careful e t') : t'.Bounded := by
  obtain ⟨taken, away⟩ := careful
  cases taken with
  | @press s s' place scancode handled =>
      obtain ⟨k, same, bound, fits⟩ := bounded
      obtain ⟨k', stored, inside, grows⟩ := keyboardHandler_grows bound scancode
      simp only at same fits away
      rw [same, keyboardHandler_shared, stored] at handled
      refine ⟨k', (Option.some.inj handled).symm, inside, ?_⟩
      by_cases entered : scancode = enter
      · exact fits.of_not_moving (away (by rw [entered]))
      · exact fits.mono (grows entered)
  | access taken =>
      obtain ⟨next, found, inside⟩ := bounded.advance
      rw [found] at taken
      exact Option.some.inj taken ▸ inside

end Bounds

/-- What the locals of `get_key` keep of an index that was at most 255. -/
def Place.Within : Place → Prop
  | .loading _ i | .storing _ i _ => i < 254
  | .writing _ n => n ≤ 255
  | _ => True

/-- The index does not pass its limit, whatever is pressed and whenever. -/
def Interleaved.Limited (s : Interleaved) : Prop := s.shared.bufferIndex ≤ 255 ∧ s.place.Within

/-- The accesses that `get_key` still makes at most, its return included. -/
def Place.remaining : Place → Nat
  | .outside | .waiting => 0
  | .taking => 766
  | .testing _ i => 3 * (254 - i) + 3
  | .loading _ i => 3 * (254 - i) + 2
  | .storing _ i _ => 3 * (254 - i) + 1
  | .leaving _ => 2
  | .writing _ _ => 1

section Progress

variable {s s' : Shared} {t t' : Interleaved} {place : Place} {scancode c : UInt8} {e : Option Event} {i : Int}

theorem Shared.put_index (written : s.put i c = some s') : s'.bufferIndex = s.bufferIndex := by
  rw [Shared.put] at written
  split at written
  · obtain ⟨b, _, rfl⟩ := Option.map_eq_some_iff.mp written
    rfl
  · cases written

theorem Shared.storeKey_limited (limited : s.bufferIndex ≤ 255) (stored : s.storeKey c = some s') :
    s'.bufferIndex ≤ 255 := by
  rw [Shared.storeKey] at stored
  split at stored
  · obtain ⟨between, _, rfl⟩ := Option.map_eq_some_iff.mp stored
    simp
  · split at stored
    next room =>
        obtain ⟨between, written, rfl⟩ := Option.map_eq_some_iff.mp stored
        have same := Shared.put_index written
        rw [inputBufferSize] at room
        simp only
        omega
    next => exact Option.some.inj stored ▸ limited

theorem Shared.keyboardHandler_limited (limited : s.bufferIndex ≤ 255)
    (handled : s.keyboardHandler scancode = some s') : s'.bufferIndex ≤ 255 := by
  rw [Shared.keyboardHandler] at handled
  split at handled
  · exact Option.some.inj handled ▸ limited
  · simp only at handled
    split at handled
    · exact Option.some.inj handled ▸ limited
    · apply Shared.storeKey_limited _ handled
      exact limited

/-- An access keeps the limit, and inside `get_key` it comes closer to the return. -/
theorem Interleaved.Limited.access (limited : Interleaved.Limited ⟨s, place⟩) (taken : advance s place = some t) :
    t.Limited ∧ (place.Reading → place.event = none → t.place.Reading ∧ t.place.remaining < place.remaining) := by
  obtain ⟨index, within⟩ := limited
  simp only at index within
  cases place with
  | outside =>
      obtain rfl := Option.some.inj taken
      exact ⟨⟨index, trivial⟩, False.elim⟩
  | waiting =>
      obtain rfl := Option.some.inj taken
      refine ⟨⟨index, ?_⟩, False.elim⟩
      show Place.Within (if _ then _ else _)
      split <;> trivial
  | taking =>
      rw [advance] at taken
      obtain ⟨c, _, rfl⟩ := Option.map_eq_some_iff.mp taken
      exact ⟨⟨index, trivial⟩, fun _ _ => ⟨trivial, by simp only [Place.remaining]; omega⟩⟩
  | testing c i =>
      rw [advance] at taken
      obtain ⟨last, decremented, rfl⟩ := Option.map_eq_some_iff.mp taken
      rw [decrement] at decremented
      split at decremented
      · obtain rfl := Option.some.inj decremented
        by_cases more : (i : Int) < s.bufferIndex - 1
        · simp only [if_pos more]
          have inside : i < 254 := by omega
          exact ⟨⟨index, inside⟩, fun _ _ => ⟨trivial, by simp only [Place.remaining]; omega⟩⟩
        · simp only [if_neg more]
          exact ⟨⟨index, trivial⟩, fun _ _ => ⟨trivial, by simp only [Place.remaining]; omega⟩⟩
      · cases decremented
  | loading c i =>
      rw [advance] at taken
      obtain ⟨x, _, rfl⟩ := Option.map_eq_some_iff.mp taken
      exact ⟨⟨index, within⟩, fun _ _ => ⟨trivial, by simp only [Place.remaining]; omega⟩⟩
  | storing c i x =>
      rw [advance] at taken
      obtain ⟨b, _, rfl⟩ := Option.map_eq_some_iff.mp taken
      rw [Place.Within] at within
      exact ⟨⟨index, trivial⟩, fun _ _ => ⟨trivial, by simp only [Place.remaining]; omega⟩⟩
  | leaving c =>
      obtain rfl := Option.some.inj taken
      exact ⟨⟨index, index⟩, fun _ _ => ⟨trivial, by simp only [Place.remaining]; omega⟩⟩
  | writing c n =>
      rw [advance] at taken
      obtain ⟨last, decremented, rfl⟩ := Option.map_eq_some_iff.mp taken
      rw [decrement] at decremented
      rw [Place.Within] at within
      split at decremented
      · obtain rfl := Option.some.inj decremented
        exact ⟨⟨by simp only; omega, trivial⟩, fun _ seen => nomatch seen⟩
      · cases decremented

theorem Interleaved.Limited.step (limited : t.Limited) (taken : t.Step e t') : t'.Limited := by
  cases taken with
  | press handled => exact ⟨Shared.keyboardHandler_limited limited.1 handled, limited.2⟩
  | access taken => exact (limited.access taken).1

end Progress

/-- The buffer is empty and nobody reads. -/
def idle (contents : Bytes) : Interleaved := ⟨⟨contents, 0, []⟩, .outside⟩

theorem bounded_idle (contents : Bytes) : (idle contents).Bounded :=
  ⟨⟨contents, 0, []⟩, rfl, by simp only; omega, trivial⟩

section Runs

variable {contents : Bytes} {events later : List (Option Event)} {s t t' : Interleaved}

theorem bounded_run (run : Run Interleaved.Careful (idle contents) events t) : t.Bounded := by
  apply run.invariant (fun _ t => t.Bounded) (bounded_idle contents)
  intro _ _ _ _ _ bounded taken
  exact bounded.step taken

end Runs

/-- The next state of a step, for samples. -/
def Interleaved.next (t : Interleaved) (e : Option Event) : Option Interleaved :=
  if t.place.event = e then advance t.shared t.place
  else
    match e with
    | some (.press scancode) => (t.shared.keyboardHandler scancode).map fun s => ⟨s, t.place⟩
    | _ => none

theorem Interleaved.step_of_next {t t' : Interleaved} {e : Option Event} (taken : t.next e = some t') :
    t.Step e t' := by
  obtain ⟨s, place⟩ := t
  unfold Interleaved.next at taken
  split at taken
  next seen => exact seen ▸ .access taken
  next =>
      split at taken
      · obtain ⟨s', handled, rfl⟩ := Option.map_eq_some_iff.mp taken
        exact .press handled
      · cases taken

/-- The next state of a careful step, for samples. -/
def Interleaved.careful (t : Interleaved) (e : Option Event) : Option Interleaved :=
  if e = some (.press enter) ∧ t.place.Moving then none else t.next e

theorem Interleaved.careful_of_careful {t t' : Interleaved} {e : Option Event} (taken : t.careful e = some t') :
    t.Careful e t' := by
  rw [Interleaved.careful] at taken
  split at taken
  next => cases taken
  next away => exact ⟨Interleaved.step_of_next taken, fun entered moving => away ⟨entered, moving⟩⟩

/-- While Enter is not pressed where `get_key` moves the buffer, no order of keys and accesses leaves the buffer. -/
theorem getKey_run_defined {contents : Bytes} {events : List (Option Event)} {t : Interleaved}
    (run : Run Interleaved.Careful (idle contents) events t) :
    t.Defined ∧ 0 ≤ t.shared.bufferIndex ∧ t.shared.bufferIndex ≤ 255 := by
  have bounded := bounded_run run
  refine ⟨bounded.defined, ?_⟩
  obtain ⟨k, same, bound, _⟩ := bounded
  rw [same]
  exact ⟨Int.natCast_nonneg _, Int.ofNat_le.mpr bound⟩

/-- The sample types a letter in the middle of `get_key` and Enter after it. -/
theorem getKey_run_defined_sample : ∃ t, Run Interleaved.Careful (idle fun _ => 0)
      [some (.press 0x1E), none, none, none, some (.press 0x30), none, none, none, none, none, some (.read 97),
       some (.press enter)] t ∧
    t.Defined ∧ 0 ≤ t.shared.bufferIndex ∧ t.shared.bufferIndex ≤ 255 := by
  have answer : (replay Interleaved.careful (idle fun _ => 0)
      [some (.press 0x1E), none, none, none, some (.press 0x30), none, none, none, none, none, some (.read 97),
       some (.press enter)]).isSome := by decide +kernel
  obtain ⟨t, replayed⟩ := Option.isSome_iff_exists.mp answer
  have run := run_of_replay (fun _ _ _ => Interleaved.careful_of_careful) replayed
  exact ⟨t, run, getKey_run_defined run⟩

/-- The reader alone returns and leaves the index at minus one. -/
def Underflows (t : Interleaved) : Prop :=
  ∃ steps c s, Run Interleaved.Step t (List.replicate steps none ++ [some (.read c)]) ⟨s, .outside⟩ ∧
    s.bufferIndex = -1

section Underflow

variable {s : Shared} {t : Interleaved} {place : Place} {c : UInt8} {i n : Nat}

theorem Underflows.before (rest : Underflows t) (taken : advance s place = some t) (silent : place.event = none) :
    Underflows ⟨s, place⟩ := by
  obtain ⟨steps, c, last, run, index⟩ := rest
  have first : Run Interleaved.Step ⟨s, place⟩ [none] t := .snoc .nil (silent ▸ .access taken)
  exact ⟨steps + 1, c, last, first.append run, index⟩

theorem underflows_leaving (empty : s.bufferIndex = 0) : Underflows ⟨s, .leaving c⟩ := by
  have stored : advance s (.writing c 0) = some ⟨{ s with bufferIndex := -1 }, .outside⟩ := rfl
  have last : Underflows ⟨s, .writing c 0⟩ := ⟨0, c, _, .snoc .nil (.access stored), rfl⟩
  apply last.before _ rfl
  simp only [advance, empty]

theorem underflows_testing (empty : s.bufferIndex = 0) : Underflows ⟨s, .testing c i⟩ := by
  have ended : advance s (.testing c i) = some ⟨s, .leaving c⟩ := by
    rw [advance, decrement, empty, if_pos (by decide), Option.map_some, if_neg (by omega)]
  exact (underflows_leaving empty).before ended rfl

theorem underflows_storing {x : UInt8} (empty : s.bufferIndex = 0) (inside : i < inputBufferSize) :
    Underflows ⟨s, .storing c i x⟩ := by
  have next : Underflows ⟨{ s with inputBuffer := Function.update s.inputBuffer i x }, .testing c (i + 1)⟩ :=
    underflows_testing empty
  apply next.before _ rfl
  rw [advance, put_eq inside]
  rfl

/-- After Enter `get_key` finds its loop ended and still takes one from the index. -/
theorem underflows_of_empty (empty : s.bufferIndex = 0) (moving : place.Moving) (fits : place.Fits n)
    (bound : n ≤ 255) : Underflows ⟨s, place⟩ := by
  cases place with
  | outside | waiting | writing c m => exact moving.elim
  | taking =>
      apply (underflows_testing (c := s.inputBuffer 0) (i := 0) empty).before _ rfl
      have inside : 0 < inputBufferSize := by decide
      rw [advance, fetch_eq inside]
      rfl
  | testing c i => exact underflows_testing empty
  | loading c i =>
      have inside : i + 1 < inputBufferSize := by
        rw [Place.Fits] at fits
        rw [inputBufferSize]
        omega
      apply (underflows_storing (c := c) (x := s.inputBuffer (i + 1)) empty (Nat.lt_of_succ_lt inside)).before _ rfl
      rw [advance, fetch_eq inside]
      rfl
  | storing c i x =>
      rw [Place.Fits] at fits
      exact underflows_storing empty (by rw [inputBufferSize]; omega)
  | leaving c => exact underflows_leaving empty

/-- Enter empties a buffer whose index is in its range. -/
theorem enter_empties {k : Device} (bound : k.bufferIndex ≤ 255) :
    ∃ s, k.shared.keyboardHandler enter = some s ∧ s.bufferIndex = 0 := by
  have typed : typedBy enter = [0x0A] := by decide
  rcases keyboardHandler_typed k enter with ⟨nothing, _⟩ | ⟨c, typing, handled⟩
  · rw [nothing] at typed
    cases typed
  · obtain rfl : c = 0x0A := by simpa [typing] using typed
    obtain ⟨k', stored, _, zero⟩ := storeKey_newline (k := { k with screen := k.screen ++ banner ++ [0x0A] }) bound
    refine ⟨k'.shared, ?_, by rw [Device.shared, zero]; rfl⟩
    rw [keyboardHandler_shared, handled, stored]
    rfl

/-- With a negative index `get_key` does not wait. -/
theorem negative_enters (negative : s.bufferIndex < 0) :
    Run Interleaved.Step ⟨s, .outside⟩ [none, none] ⟨s, .taking⟩ := by
  have called : advance s .outside = some ⟨s, .waiting⟩ := rfl
  have found : advance s .waiting = some ⟨s, .taking⟩ := by
    rw [advance, if_neg (by omega)]
  exact (Run.nil.snoc (.access called)).snoc (.access found)

end Underflow

/-- Enter while `get_key` moves the buffer makes the index minus one. The next key that types a character writes
in front of the buffer, and the next `get_key` takes a character without waiting. -/
theorem enter_inside_underflows {contents : Bytes} {events : List (Option Event)} {t : Interleaved}
    (run : Run Interleaved.Careful (idle contents) events t) (moving : t.place.Moving) :
    ∃ t₁ steps c s, t.Step (some (.press enter)) t₁ ∧
      Run Interleaved.Step t₁ (List.replicate steps none ++ [some (.read c)]) ⟨s, .outside⟩ ∧
      s.bufferIndex = -1 ∧ (∀ scancode, typedBy scancode ≠ [] → s.keyboardHandler scancode = none) ∧
      Run Interleaved.Step ⟨s, .outside⟩ [none, none] ⟨s, .taking⟩ := by
  obtain ⟨s, place⟩ := t
  obtain ⟨k, same, bound, fits⟩ := bounded_run run
  obtain ⟨s₁, handled, empty⟩ := enter_empties bound
  rw [← same] at handled
  obtain ⟨steps, c, last, alone, index⟩ := underflows_of_empty empty moving fits bound
  have negative : last.bufferIndex < 0 := by omega
  exact ⟨⟨s₁, place⟩, steps, c, last, .press handled, alone, index,
    fun _ typing => keyboardHandler_negative negative typing, negative_enters negative⟩

/-- The sample types a letter and presses Enter when `get_key` has taken it. -/
theorem enter_inside_underflows_sample : ∃ t,
    Run Interleaved.Careful (idle fun _ => 0) [some (.press 0x1E), none, none, none] t ∧
    ∃ t₁ steps c s, t.Step (some (.press enter)) t₁ ∧
      Run Interleaved.Step t₁ (List.replicate steps none ++ [some (.read c)]) ⟨s, .outside⟩ ∧
      s.bufferIndex = -1 ∧ (∀ scancode, typedBy scancode ≠ [] → s.keyboardHandler scancode = none) ∧
      Run Interleaved.Step ⟨s, .outside⟩ [none, none] ⟨s, .taking⟩ := by
  have answer : (replay Interleaved.careful (idle fun _ => 0) [some (.press 0x1E), none, none, none]).map
      Interleaved.place = some (.testing 97 0) := by decide +kernel
  obtain ⟨t, replayed, place⟩ := Option.map_eq_some_iff.mp answer
  have run := run_of_replay (fun _ _ _ => Interleaved.careful_of_careful) replayed
  exact ⟨t, run, enter_inside_underflows run (by rw [place]; trivial)⟩

end OsKernel.Keyboard
