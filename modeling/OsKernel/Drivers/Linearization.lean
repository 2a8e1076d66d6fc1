import OsKernel.Drivers.Interleaving
import OsKernel.Library.Simulations

/-
This file compares the interleaved accesses of `get_key` with a driver whose handler and reader are one step each.
-/

namespace OsKernel.Keyboard
open Library

/-- The handler and `get_key` as one step each. -/
inductive Device.Step : Device → Event → Device → Prop
  | press {k k' : Device} {scancode : UInt8} (handled : keyboardHandler k scancode = some k') :
      Step k (.press scancode) k'
  | read {k k' : Device} {c : UInt8} (read : getKey k = some (c, k')) : Step k (.read c) k'

/-- A careful step in which no key types a character between the end of the loop and the store of the index. -/
def Interleaved.Calm (s : Interleaved) (e : Option Event) (s' : Interleaved) : Prop :=
  s.Careful e s' ∧ ∀ scancode, e = some (.press scancode) → typedBy scancode ≠ [] → ¬ s.place.Finishing

/-- Of a buffer `f` of `n` characters, the first `i` after the one that is taken have moved to the front of `b`. -/
structure Moved (b f : Bytes) (n : Nat) (c : UInt8) (i : Nat) : Prop where
  first : c = f 0
  inside : i < n
  moved : ∀ j < i, b j = f (j + 1)
  kept : ∀ j, i ≤ j → j < n → b j = f j

/-- What `b` and the locals of each place hold of a buffer `f` of `n` characters that still has the taken one. -/
def Place.Holds (b f : Bytes) (n : Nat) : Place → Prop
  | .outside | .waiting => ∀ j < n, b j = f j
  | .taking => 0 < n ∧ ∀ j < n, b j = f j
  | .testing c i => Moved b f n c i
  | .loading c i => i + 1 < n ∧ Moved b f n c i
  | .storing c i x => i + 1 < n ∧ x = f (i + 1) ∧ Moved b f n c i
  | .leaving c => Moved b f n c (n - 1)
  | .writing c m => m = n ∧ Moved b f n c (n - 1)

/-- The device in which `get_key` has not happened yet stands for the state. -/
def Stands (s : Interleaved) (k : Device) : Prop :=
  ∃ d : Device, s.shared = d.shared ∧ d.bufferIndex = k.bufferIndex ∧ d.screen = k.screen ∧
    k.bufferIndex ≤ 255 ∧ s.place.Holds d.inputBuffer k.inputBuffer k.bufferIndex

section Append

variable {b f : Bytes} {n i : Nat} {c : UInt8} {place : Place}

/-- Buffers that agree still agree after one more character. -/
theorem update_agree (same : ∀ j < n, b j = f j) (x : UInt8) :
    ∀ j < n + 1, Function.update b n x j = Function.update f n x j := by
  intro j upper
  by_cases last : j = n
  · rw [last, Function.update_self, Function.update_self]
  · rw [Function.update_of_ne last, Function.update_of_ne last]
    exact same j (by omega)

/-- A character behind the buffer does not disturb the move. -/
theorem Moved.append (moved : Moved b f n c i) (x : UInt8) :
    Moved (Function.update b n x) (Function.update f n x) (n + 1) c i := by
  have inside := moved.inside
  refine ⟨?_, Nat.lt_succ_of_lt inside, ?_, ?_⟩
  · rw [moved.first, Function.update_of_ne (by omega)]
  · intro j before
    rw [Function.update_of_ne (by omega), Function.update_of_ne (by omega)]
    exact moved.moved j before
  · intro j after upper
    by_cases last : j = n
    · rw [last, Function.update_self, Function.update_self]
    · rw [Function.update_of_ne last, Function.update_of_ne last]
      exact moved.kept j after (by omega)

/-- The loop stores the next character. -/
theorem Moved.store {x : UInt8} (moved : Moved b f n c i) (more : i + 1 < n) (loaded : x = f (i + 1)) :
    Moved (Function.update b i x) f n c (i + 1) := by
  refine ⟨moved.first, more, ?_, ?_⟩
  · intro j before
    by_cases here : j = i
    · rw [here, Function.update_self, loaded]
    · rw [Function.update_of_ne here]
      exact moved.moved j (by omega)
  · intro j after upper
    rw [Function.update_of_ne (by omega)]
    exact moved.kept j (by omega) upper

/-- In every place but the last two, both buffers take one more character. -/
theorem Place.Holds.append (holds : place.Holds b f n) (early : ¬ place.Finishing) (x : UInt8) :
    place.Holds (Function.update b n x) (Function.update f n x) (n + 1) := by
  cases place with
  | outside | waiting => exact update_agree holds x
  | taking => exact ⟨Nat.succ_pos _, update_agree holds.2 x⟩
  | testing c i => exact Moved.append holds x
  | loading c i => exact ⟨Nat.lt_succ_of_lt holds.1, holds.2.append x⟩
  | storing c i y =>
      obtain ⟨more, loaded, moved⟩ := holds
      refine ⟨Nat.lt_succ_of_lt more, ?_, moved.append x⟩
      rw [loaded, Function.update_of_ne (by omega)]
  | leaving c | writing c m => exact absurd trivial early

end Append

section Steps

variable {s s' : Shared} {t : Interleaved} {place : Place} {k k' : Device} {scancode : UInt8}

/-- `get_key` in one step moves every character but the first. -/
theorem getKey_moves (bound : k.bufferIndex ≤ 255) (waiting : 0 < k.bufferIndex) :
    ∃ b, getKey k = some (k.inputBuffer 0, { k with inputBuffer := b, bufferIndex := k.bufferIndex - 1 }) ∧
      ∀ j < k.bufferIndex - 1, b j = k.inputBuffer (j + 1) := by
  obtain ⟨b, ended, moved⟩ := shiftBuffer_eq bound
  have first : 0 < inputBufferSize := by decide
  refine ⟨b, ?_, moved⟩
  rw [getKey, if_neg (by omega), fetch_eq first, Option.bind_some, ended]
  rfl

/-- The handler does to the state what it does to the device. -/
theorem Stands.press (stands : Stands ⟨s, place⟩ k) (handled : s.keyboardHandler scancode = some s')
    (careful : scancode = enter → ¬ place.Moving) (early : typedBy scancode ≠ [] → ¬ place.Finishing) :
    ∃ k', keyboardHandler k scancode = some k' ∧ Stands ⟨s', place⟩ k' := by
  obtain ⟨d, rfl, index, screen, bound, holds⟩ := stands
  rw [keyboardHandler_shared] at handled
  obtain ⟨d', stored, rfl⟩ := Option.map_eq_some_iff.mp handled
  rcases keyboardHandler_typed d scancode with ⟨nothing, kept⟩ | ⟨x, typed, storing⟩
  · rcases keyboardHandler_typed k scancode with ⟨_, same⟩ | ⟨x, typed, _⟩
    · rw [kept] at stored
      obtain rfl := Option.some.inj stored
      exact ⟨_, same, { d with screen := d.screen ++ banner }, rfl, index, by rw [screen], bound, holds⟩
    · rw [nothing] at typed
      cases typed
  · rcases keyboardHandler_typed k scancode with ⟨nothing, _⟩ | ⟨x', typed', same⟩
    · rw [nothing] at typed
      cases typed
    obtain rfl : x = x' := by simpa [typed] using typed'
    have late : ¬ place.Finishing := early (by rw [typed]; exact List.cons_ne_nil _ _)
    rw [storing] at stored
    rw [same]
    by_cases newline : x = 0x0A
    · have inside : d.bufferIndex < inputBufferSize := by
        rw [inputBufferSize]
        omega
      have entered : scancode = enter := typedBy_newline (by rw [typed, newline])
      rw [storeKey, if_pos newline, put_eq inside] at stored
      obtain rfl := Option.some.inj stored
      rw [storeKey, if_pos newline, put_eq (by rw [← index]; exact inside)]
      refine ⟨_, rfl, _, rfl, rfl, by simp only [screen], Nat.zero_le _, ?_⟩
      have away := careful entered
      cases place with
      | outside | waiting => exact fun _ before => absurd before (Nat.not_lt_zero _)
      | leaving c | writing c n => exact absurd trivial late
      | _ => exact absurd trivial away
    · rw [storeKey, if_neg newline] at stored
      rw [storeKey, if_neg newline]
      by_cases room : k.bufferIndex < inputBufferSize - 1
      · have inside : k.bufferIndex < inputBufferSize := by omega
        simp only [index, if_pos room, put_eq inside, Option.map_some] at stored
        simp only [if_pos room, put_eq inside, Option.map_some]
        obtain rfl := Option.some.inj stored
        rw [inputBufferSize] at room
        exact ⟨_, rfl, _, rfl, rfl, by simp only [screen], by simp only; omega, holds.append late x⟩
      · simp only [index, if_neg room] at stored
        simp only [if_neg room]
        obtain rfl := Option.some.inj stored
        exact ⟨_, rfl, _, rfl, rfl, by simp only [screen], bound, holds⟩

/-- An access keeps the device until the index is stored, where the device takes its first character. -/
theorem Stands.access (stands : Stands ⟨s, place⟩ k) (taken : advance s place = some t) :
    (place.event = none ∧ Stands t k) ∨
    ∃ c k', place.event = some (.read c) ∧ getKey k = some (c, k') ∧ Stands t k' := by
  obtain ⟨d, rfl, index, screen, bound, holds⟩ := stands
  have same : d.shared.bufferIndex = k.bufferIndex := by rw [← index]; rfl
  cases place with
  | outside =>
      obtain rfl := Option.some.inj taken
      exact .inl ⟨rfl, d, rfl, index, screen, bound, holds⟩
  | waiting =>
      obtain rfl := Option.some.inj taken
      refine .inl ⟨rfl, d, rfl, index, screen, bound, ?_⟩
      rw [same]
      show Place.Holds _ _ _ (if _ then _ else _)
      split
      · exact holds
      · exact ⟨by omega, holds⟩
  | taking =>
      obtain ⟨positive, agree⟩ := holds
      have first : 0 < inputBufferSize := by decide
      rw [advance, fetch_eq first] at taken
      obtain rfl := Option.some.inj taken
      refine .inl ⟨rfl, d, rfl, index, screen, bound, agree 0 positive, positive, ?_, ?_⟩
      · exact fun _ before => absurd before (Nat.not_lt_zero _)
      · exact fun j _ upper => agree j upper
  | testing c i =>
      rw [advance, decrement, same, if_pos (by omega)] at taken
      obtain rfl := Option.some.inj taken
      refine .inl ⟨rfl, d, rfl, index, screen, bound, ?_⟩
      have inside := holds.inside
      show Place.Holds _ _ _ (if (i : Int) < k.bufferIndex - 1 then _ else _)
      split
      next more => exact ⟨by omega, holds⟩
      next ended =>
          obtain rfl : i = k.bufferIndex - 1 := by omega
          exact holds
  | loading c i =>
      obtain ⟨more, moved⟩ := holds
      have inside : i + 1 < inputBufferSize := by
        rw [inputBufferSize]
        omega
      rw [advance, fetch_eq inside] at taken
      obtain rfl := Option.some.inj taken
      exact .inl ⟨rfl, d, rfl, index, screen, bound, more, moved.kept _ (Nat.le_succ i) more, moved⟩
  | storing c i x =>
      obtain ⟨more, loaded, moved⟩ := holds
      have inside : i < inputBufferSize := by
        rw [inputBufferSize]
        omega
      rw [advance, put_eq inside] at taken
      obtain rfl := Option.some.inj taken
      refine .inl ⟨rfl, { d with inputBuffer := Function.update d.inputBuffer i x }, rfl, index, screen, bound, ?_⟩
      exact moved.store more loaded
  | leaving c =>
      obtain rfl := Option.some.inj taken
      exact .inl ⟨rfl, d, rfl, index, screen, bound, same, holds⟩
  | writing c m =>
      obtain ⟨rfl, moved⟩ := holds
      have positive : 0 < k.bufferIndex := Nat.zero_lt_of_lt moved.inside
      obtain ⟨b, read, front⟩ := getKey_moves bound positive
      rw [advance, decrement, if_pos (by omega)] at taken
      obtain rfl := Option.some.inj taken
      rw [← moved.first] at read
      refine .inr ⟨c, _, rfl, read, { d with bufferIndex := k.bufferIndex - 1 }, ?_, rfl, screen, ?_, ?_⟩
      · simp only [Device.shared]
        congr 1
        omega
      · simp only
        omega
      · intro j inside
        show d.inputBuffer j = b j
        rw [front j inside]
        exact moved.moved j inside

end Steps

/-- Every calm interleaving is one of the driver whose handler and reader are one step each. -/
theorem interleaved_simulates : Simulates Interleaved.Calm id Device.Step Stands := by
  intro s k e s' stands calm
  obtain ⟨⟨taken, careful⟩, early⟩ := calm
  cases taken with
  | press handled =>
      obtain ⟨k', stored, last⟩ := stands.press handled (fun entered => careful (by rw [entered])) (early _ rfl)
      exact .inr ⟨_, k', rfl, .press stored, last⟩
  | access taken =>
      rcases stands.access taken with kept | ⟨c, k', seen, read, last⟩
      · exact .inl kept
      · exact .inr ⟨_, k', seen, .read read, last⟩

theorem stands_idle (contents : Bytes) : Stands (idle contents) ⟨contents, 0, []⟩ :=
  ⟨⟨contents, 0, []⟩, rfl, rfl, rfl, Nat.zero_le _, fun _ _ => rfl⟩

/-- The characters that wait to be read. -/
def Shared.buffered (s : Shared) : List UInt8 := (List.range s.bufferIndex.toNat).map s.inputBuffer

/-- Where no character is being taken, the same characters wait. -/
theorem Stands.buffered {s : Interleaved} {k : Device} (stands : Stands s k) (away : ¬ s.place.Reading) :
    s.shared.buffered = Keyboard.buffered k := by
  obtain ⟨s, place⟩ := s
  obtain ⟨d, rfl, index, _, _, holds⟩ := stands
  have agree : ∀ j < k.bufferIndex, d.inputBuffer j = k.inputBuffer j := by
    cases place with
    | outside | waiting => exact holds
    | _ => exact absurd trivial away
  have size : d.shared.bufferIndex.toNat = k.bufferIndex := index
  rw [Shared.buffered, size, Keyboard.buffered]
  apply List.map_congr_left
  intro j member
  exact agree j (List.mem_range.mp member)

/-- The characters that the keys of a history type. -/
def typedIn (history : List Event) : List UInt8 := history.flatMap fun
  | .press scancode => typedBy scancode
  | .read _ => []

/-- The characters that `get_key` returns in a history. -/
def readIn (history : List Event) : List UInt8 := history.filterMap fun
  | .press _ => none
  | .read c => some c

/-- Every key that types a character finds room for it, and none is Enter. -/
def Attended (history : List Event) : Prop :=
  ∀ before after scancode, history = before ++ .press scancode :: after → typedBy scancode ≠ [] →
    scancode ≠ enter ∧ (typedIn before).length < (readIn before).length + 255

section History

variable {history : List Event} {contents : Bytes} {k : Device} {c scancode : UInt8}

theorem typedIn_press : typedIn (history ++ [.press scancode]) = typedIn history ++ typedBy scancode := by
  simp [typedIn]

theorem typedIn_read : typedIn (history ++ [.read c]) = typedIn history := by simp [typedIn]

theorem readIn_press : readIn (history ++ [.press scancode]) = readIn history := by simp [readIn]

theorem readIn_read : readIn (history ++ [.read c]) = readIn history ++ [c] := by simp [readIn]

theorem Attended.left {event : Event} (attended : Attended (history ++ [event])) : Attended history := by
  intro before after scancode split typing
  apply attended before (after ++ [event]) scancode _ typing
  rw [split, List.append_assoc, List.cons_append]

/-- Nothing is invented, repeated or reordered, and nothing is lost while there is room and no Enter. -/
theorem device_run_ordered (run : Run Device.Step ⟨contents, 0, []⟩ history k) :
    k.bufferIndex ≤ 255 ∧ (readIn history ++ buffered k).Sublist (typedIn history) ∧
      (Attended history → readIn history ++ buffered k = typedIn history) := by
  induction run with
  | nil => exact ⟨Nat.zero_le _, List.Sublist.refl _, fun _ => rfl⟩
  | @snoc history k k' event _ taken ih =>
      obtain ⟨bound, ordered, whole⟩ := ih
      cases taken with
      | @press _ scancode handled =>
          obtain ⟨k₁, found, inside, cases⟩ := keyboardHandler_spec bound scancode
          obtain rfl : k₁ = k' := Option.some.inj (found.symm.trans handled)
          rw [typedIn_press, readIn_press]
          refine ⟨inside, ?_, ?_⟩
          · rcases cases with ⟨_, kept⟩ | ⟨_, empty⟩ | ⟨x, _, typed, ⟨_, kept⟩ | appended⟩
            · rw [kept]
              exact ordered.trans (List.sublist_append_left _ _)
            · rw [empty, List.append_nil]
              exact ((List.sublist_append_left _ _).trans ordered).trans (List.sublist_append_left _ _)
            · rw [kept]
              exact ordered.trans (List.sublist_append_left _ _)
            · rw [appended, typed, ← List.append_assoc]
              exact ordered.append (List.Sublist.refl _)
          · intro attended
            have before := whole attended.left
            have length := congrArg List.length before
            rw [List.length_append, length_buffered] at length
            rcases cases with ⟨nothing, kept⟩ | ⟨newline, _⟩ | ⟨x, _, typed, ⟨full, _⟩ | appended⟩
            · rw [nothing, kept, before, List.append_nil]
            · exact absurd (typedBy_newline newline)
                (attended history [] scancode rfl (by rw [newline]; exact List.cons_ne_nil _ _)).1
            · have room := (attended history [] scancode rfl (by rw [typed]; exact List.cons_ne_nil _ _)).2
              omega
            · rw [appended, typed, ← before, List.append_assoc]
      | @read _ c taken =>
          have waiting : 0 < k.bufferIndex := by
            rw [Nat.pos_iff_ne_zero]
            intro empty
            rw [getKey, if_pos empty] at taken
            cases taken
          obtain ⟨c₁, k₁, found, front, index⟩ := getKey_spec bound waiting
          obtain ⟨rfl, rfl⟩ := Prod.mk.inj (Option.some.inj (found.symm.trans taken))
          rw [typedIn_read, readIn_read, List.append_assoc, List.singleton_append, ← front]
          exact ⟨by omega, ordered, fun attended => whole attended.left⟩

end History

instance : DecidablePred Place.Finishing
  | .leaving _ | .writing _ _ => .isTrue trivial
  | .outside | .waiting | .taking | .testing _ _ | .loading _ _ | .storing _ _ _ => .isFalse id

/-- The next state of a calm step, for samples. -/
def Interleaved.calm (t : Interleaved) : Option Event → Option Interleaved
  | some (.press scancode) =>
      if typedBy scancode ≠ [] ∧ t.place.Finishing then none else t.careful (some (.press scancode))
  | some (.read c) => t.careful (some (.read c))
  | none => t.careful none

theorem Interleaved.calm_of_calm {t t' : Interleaved} {e : Option Event} (taken : t.calm e = some t') :
    t.Calm e t' := by
  cases e with
  | none => exact ⟨Interleaved.careful_of_careful taken, nofun⟩
  | some event =>
      cases event with
      | read c => exact ⟨Interleaved.careful_of_careful taken, nofun⟩
      | press scancode =>
          rw [Interleaved.calm] at taken
          split at taken
          next => cases taken
          next early =>
              refine ⟨Interleaved.careful_of_careful taken, ?_⟩
              intro key same typing finishing
              obtain ⟨⟩ := same
              exact early ⟨typing, finishing⟩

/-- A letter is typed while `get_key` moves the buffer, and the next call returns it. -/
def overlapped : List (Option Event) :=
  [some (.press 0x1E), none, none, none, some (.press 0x30), none, none, none, none, none, some (.read 97),
   none, none, none, none, none, some (.read 98)]

/-- In every calm interleaving the keys and the returned characters are a run of the driver whose handler and
reader are one step each, and between two calls of `get_key` both hold the same characters. -/
theorem getKey_run_linearizes {contents : Bytes} {events : List (Option Event)} {t : Interleaved}
    (run : Run Interleaved.Calm (idle contents) events t) :
    ∃ k, Run Device.Step ⟨contents, 0, []⟩ (events.filterMap id) k ∧ Stands t k ∧
      (¬ t.place.Reading → t.shared.buffered = buffered k) := by
  obtain ⟨k, atomic, stands⟩ := interleaved_simulates.run (stands_idle contents) run
  exact ⟨k, atomic, stands, stands.buffered⟩

/-- The sample types the second letter in the middle of the first call. -/
theorem getKey_run_linearizes_sample : ∃ t k, Run Interleaved.Calm (idle fun _ => 0) overlapped t ∧
    Run Device.Step ⟨fun _ => 0, 0, []⟩ [.press 0x1E, .press 0x30, .read 97, .read 98] k ∧ Stands t k ∧
    (¬ t.place.Reading → t.shared.buffered = buffered k) := by
  have answer : (replay Interleaved.calm (idle fun _ => 0) overlapped).isSome := by decide +kernel
  obtain ⟨t, replayed⟩ := Option.isSome_iff_exists.mp answer
  have run := run_of_replay (fun _ _ _ => Interleaved.calm_of_calm) replayed
  obtain ⟨k, atomic, stands, same⟩ := getKey_run_linearizes run
  exact ⟨t, k, run, atomic, stands, same⟩

/-- In every calm interleaving `get_key` returns a part of what was typed in its order, and with room and
without Enter all of it. -/
theorem getKey_run_ordered {contents : Bytes} {events : List (Option Event)} {t : Interleaved}
    (run : Run Interleaved.Calm (idle contents) events t) :
    (readIn (events.filterMap id)).Sublist (typedIn (events.filterMap id)) ∧
    (Attended (events.filterMap id) → readIn (events.filterMap id) <+: typedIn (events.filterMap id) ∧
      (¬ t.place.Reading →
        readIn (events.filterMap id) ++ t.shared.buffered = typedIn (events.filterMap id))) := by
  obtain ⟨k, atomic, stands⟩ := interleaved_simulates.run (stands_idle contents) run
  obtain ⟨_, ordered, whole⟩ := device_run_ordered atomic
  refine ⟨(List.sublist_append_left _ _).trans ordered, ?_⟩
  intro attended
  refine ⟨⟨_, whole attended⟩, ?_⟩
  intro away
  rw [stands.buffered away]
  exact whole attended

/-- The sample reads both letters in their order. -/
theorem getKey_run_ordered_sample : ∃ t, Run Interleaved.Calm (idle fun _ => 0) overlapped t ∧
    List.Sublist [97, 98] (typedIn (overlapped.filterMap id)) ∧ ([97, 98] : List UInt8) <+: [97, 98] ∧
    (¬ t.place.Reading → [97, 98] ++ t.shared.buffered = [97, 98]) := by
  have answer : (replay Interleaved.calm (idle fun _ => 0) overlapped).isSome := by decide +kernel
  obtain ⟨t, replayed⟩ := Option.isSome_iff_exists.mp answer
  have run := run_of_replay (fun _ _ _ => Interleaved.calm_of_calm) replayed
  have attended : Attended (overlapped.filterMap id) := by
    intro before after scancode split _
    match before, split with
    | [], split => cases split; decide
    | [_], split => cases split; decide
    | [_, _], split => cases split
    | [_, _, _], split => cases split
    | _ :: _ :: _ :: _ :: rest, split => simp [overlapped] at split
  obtain ⟨ordered, whole⟩ := getKey_run_ordered run
  exact ⟨t, run, ordered, whole attended⟩

section Late

variable {s : Shared} {k d : Device} {place : Place} {c x scancode : UInt8}

/-- The loop has copied every character but the last, which is still in its old cell. -/
theorem Moved.buffered {b : Bytes} {n : Nat} (moved : Moved b k.inputBuffer n c (n - 1)) (size : k.bufferIndex = n) :
    (List.range (n - 1)).map b = (Keyboard.buffered k).tail ∧
    (Keyboard.buffered k).getLast? = some (b (n - 1)) := by
  obtain ⟨m, rfl⟩ : ∃ m, n = m + 1 := ⟨n - 1, by have inside := moved.inside; omega⟩
  rw [Keyboard.buffered, size, Nat.add_sub_cancel] at *
  constructor
  · rw [List.range_succ_eq_map, List.map_cons, List.tail_cons, List.map_map]
    apply List.map_congr_left
    intro j member
    exact moved.moved j (by simpa using member)
  · rw [List.range_succ, List.map_append, List.map_singleton, List.getLast?_concat,
      moved.kept m (Nat.le_refl m) (by omega)]

end Late

end OsKernel.Keyboard
