import Mathlib.Data.List.Rotate
import Mathlib.Tactic

/-
This file gives the timing laws of a list that is served in turns.
The first of the list is served until its slice is used up, and then it goes to the end.
-/

namespace OsKernel.Library

/-- The members are served in the order of the list, and each has some ticks left. -/
structure Rotation (α : Type*) where
  order : List α
  slice : α → Nat

namespace Rotation

variable {α : Type*} {r r' : Rotation α} {p : α} {rest : List α} {n : Nat}

/-- A turn lasts for the slice, and for one tick when the slice is empty. -/
def turn (r : Rotation α) (p : α) : Nat := max (r.slice p) 1

/-- The ticks that pass before the member at a place is served. -/
def delay (r : Rotation α) (k : Nat) : Nat := ((r.order.take k).map r.turn).sum

@[simp] theorem delay_zero (r : Rotation α) : r.delay 0 = 0 := rfl

theorem turn_pos (r : Rotation α) (p : α) : 0 < r.turn p := Nat.lt_of_lt_of_le Nat.one_pos (le_max_right _ _)

theorem delay_cons (order : r.order = p :: rest) (k : Nat) :
    r.delay (k + 1) = r.turn p + (⟨rest, r.slice⟩ : Rotation α).delay k := by
  rw [delay, order, List.take_succ_cons, List.map_cons, List.sum_cons]
  rfl

theorem delay_succ {k : Nat} (place : r.order[k]? = some p) : r.delay (k + 1) = r.delay k + r.turn p := by
  have inside : k < r.order.length := (List.getElem?_eq_some_iff.mp place).1
  rw [delay, delay, List.take_add_one, place, Option.toList_some, List.map_append, List.sum_append]
  rfl

section Places

/-- The member at place `k` is not served before its place. -/
theorem not_mem_take {k : Nat} (nodup : r.order.Nodup) (place : r.order[k]? = some p) : p ∉ r.order.take k := by
  have apart : (r.order.take (k + 1)).Nodup := nodup.sublist (List.take_sublist _ _)
  rw [List.take_add_one, place, Option.toList_some] at apart
  exact fun member => (List.nodup_append.mp apart).2.2 p member p (List.mem_singleton_self p) rfl

theorem rotate_front {k : Nat} (place : r.order[k]? = some p) :
    r.order.rotate k = p :: (r.order.drop (k + 1) ++ r.order.take k) := by
  obtain ⟨inside, found⟩ := List.getElem?_eq_some_iff.mp place
  rw [List.rotate_eq_drop_append_take inside.le, List.drop_eq_getElem_cons inside, found, List.cons_append]

end Places

section Bounds

/-- A step charges `n` ticks to the first member, and the list may grow at its end.
The first member stays with a shorter turn, unless it is alone, or it leaves its place. -/
inductive Advances (r : Rotation α) (n : Nat) (r' : Rotation α) : Prop
  | stays {new : List α} (order : r'.order = r.order ++ new) (slices : ∀ q ∈ r.order, r'.slice q ≤ r.slice q)
      (charged : ∀ q rest, r.order = q :: rest → rest ≠ [] → r'.turn q + n ≤ r.turn q)
  | passes {p : α} {rest new : List α} (front : r.order = p :: rest) (order : r'.order = rest ++ new)
      (slices : ∀ q ∈ rest, r'.slice q ≤ r.slice q) (short : n ≤ 1)

theorem turn_le (shorter : r'.slice p ≤ r.slice p) : r'.turn p ≤ r.turn p := max_le_max_right 1 shorter

/-- Shorter slices make for shorter delays. -/
theorem delay_le {k : Nat} (slices : ∀ q ∈ r.order.take k, r'.slice q ≤ r.slice q)
    (order : r'.order.take k = r.order.take k) : r'.delay k ≤ r.delay k := by
  rw [delay, delay, order]
  apply List.sum_le_sum
  intro q member
  exact turn_le (slices q member)

/-- A step brings a waiting member nearer by the ticks it charges, whether or not it moves up. -/
theorem Advances.delay_le {k : Nat} (advances : r.Advances n r') (place : r.order[k + 1]? = some p) :
    ∃ j, j ≤ k + 1 ∧ r'.order[j]? = some p ∧ r'.delay j + n ≤ r.delay (k + 1) := by
  have inside : k + 1 < r.order.length := (List.getElem?_eq_some_iff.mp place).1
  cases advances with
  | @stays new order slices charged =>
      refine ⟨k + 1, le_rfl, by rw [order, List.getElem?_append_left inside, place], ?_⟩
      cases front : r.order with
      | nil => simp [front] at inside
      | cons q rest =>
          rw [front] at order slices inside
          have others : rest ≠ [] := by
            rintro rfl
            simp at inside
          have first := charged q rest front others
          have later : (⟨rest ++ new, r'.slice⟩ : Rotation α).delay k ≤ (⟨rest, r.slice⟩ : Rotation α).delay k := by
            have within : k ≤ rest.length := Nat.le_of_lt (Nat.lt_of_succ_lt_succ inside)
            refine Rotation.delay_le ?_ (List.take_append_of_le_length within)
            exact fun s member => slices s (List.mem_cons_of_mem q (List.mem_of_mem_take member))
          have after : r'.delay (k + 1) = r'.turn q + (⟨rest ++ new, r'.slice⟩ : Rotation α).delay k :=
            delay_cons order k
          rw [after, delay_cons front]
          omega
  | @passes q rest new front order slices short =>
      rw [front, List.getElem?_cons_succ] at place
      have within : k < rest.length := (List.getElem?_eq_some_iff.mp place).1
      refine ⟨k, Nat.le_succ k, by rw [order, List.getElem?_append_left within, place], ?_⟩
      have later : r'.delay k ≤ (⟨rest, r.slice⟩ : Rotation α).delay k := by
        refine Rotation.delay_le ?_ (by rw [order]; exact List.take_append_of_le_length within.le)
        exact fun s member => slices s (List.mem_of_mem_take member)
      have own := r.turn_pos q
      rw [delay_cons front]
      omega

/-- Whoever waits has somebody to wait for. -/
theorem delay_pos {k : Nat} (inside : k < r.order.length) : k ≤ r.delay k := by
  induction k with
  | zero => exact Nat.zero_le _
  | succ k ih =>
      have earlier := ih (by omega)
      have own := r.turn_pos r.order[k]
      rw [delay_succ (List.getElem?_eq_getElem (by omega))]
      omega

end Bounds

section Ticks

variable [DecidableEq α]

/-- A tick charges the first member, who goes to the end when nothing of its slice is left. -/
def tick (r : Rotation α) : Rotation α :=
  match r.order with
  | [] => r
  | p :: rest =>
      ⟨if r.slice p ≤ 1 then rest ++ [p] else p :: rest, Function.update r.slice p (r.slice p - 1)⟩

/-- A first member with ticks left stays. -/
theorem tick_stays (order : r.order = p :: rest) (more : 1 < r.slice p) :
    r.tick = ⟨p :: rest, Function.update r.slice p (r.slice p - 1)⟩ := by
  rw [tick, order]
  dsimp only
  rw [if_neg (by omega)]

/-- A first member without ticks left goes to the end. -/
theorem tick_passes (order : r.order = p :: rest) (last : r.slice p ≤ 1) :
    r.tick = ⟨rest ++ [p], Function.update r.slice p 0⟩ := by
  rw [tick, order]
  dsimp only
  rw [if_pos last, Nat.sub_eq_zero_of_le last]

theorem tick_nil (order : r.order = []) : r.tick = r := by
  rw [tick, order]

theorem tick_slice (order : r.order = p :: rest) :
    r.tick.slice = Function.update r.slice p (r.slice p - 1) := by
  rw [tick, order]

theorem tick_slice_le (r : Rotation α) (q : α) : r.tick.slice q ≤ r.slice q := by
  cases order : r.order with
  | nil => rw [tick_nil order]
  | cons p rest =>
      rw [tick_slice order]
      by_cases same : q = p
      · simp [same]
      · simp [same]

/-- A tick is a step that charges one. -/
theorem tick_advances (r : Rotation α) : r.Advances 1 r.tick := by
  cases front : r.order with
  | nil =>
      refine .stays (by rw [tick_nil front, List.append_nil]) (fun q _ => r.tick_slice_le q) ?_
      intro q rest order
      rw [front] at order
      cases order
  | cons p rest =>
      by_cases last : r.slice p ≤ 1
      · exact .passes front (congrArg order (tick_passes front last)) (fun q _ => r.tick_slice_le q) le_rfl
      · have stays := tick_stays front (Nat.lt_of_not_le last)
        refine .stays (by rw [stays, front, List.append_nil]) (fun q _ => r.tick_slice_le q) ?_
        intro q others order _
        obtain ⟨rfl, _⟩ := List.cons.inj (front.symm.trans order)
        rw [turn, turn, tick_slice front, Function.update_self]
        omega

/-- The first member stays for its turn. -/
theorem ticks_stay (order : r.order = p :: rest) (early : n < r.turn p) :
    tick^[n] r = ⟨p :: rest, Function.update r.slice p (r.slice p - n)⟩ := by
  induction n with
  | zero => rw [Function.iterate_zero_apply, Nat.sub_zero, Function.update_eq_self, ← order]
  | succ n ih =>
      have more : n + 1 < r.slice p := by
        rw [turn] at early
        omega
      have left : 1 < Function.update r.slice p (r.slice p - n) p := by
        rw [Function.update_self]
        omega
      rw [Function.iterate_succ_apply', ih (by omega), tick_stays rfl left]
      dsimp only
      rw [Function.update_self, Function.update_idem, Nat.sub_sub]

/-- After its turn the first member stands at the end and its slice is empty. -/
theorem ticks_turn (order : r.order = p :: rest) :
    tick^[r.turn p] r = ⟨rest ++ [p], Function.update r.slice p 0⟩ := by
  obtain ⟨n, last⟩ := Nat.exists_eq_add_of_le' (r.turn_pos p)
  have short : Function.update r.slice p (r.slice p - n) p ≤ 1 := by
    rw [Function.update_self]
    rw [turn] at last
    omega
  rw [last, Function.iterate_succ_apply', ticks_stay order (by omega), tick_passes rfl short]
  dsimp only
  rw [Function.update_idem]

/-- The slices when the first `k` members have been served. -/
def spent (r : Rotation α) (k : Nat) (q : α) : Nat := if q ∈ r.order.take k then 0 else r.slice q

/-- A member that has not been served has its own turn left. -/
theorem turn_spent {k : Nat} (nodup : r.order.Nodup) (place : r.order[k]? = some p) (order : List α) :
    (⟨order, r.spent k⟩ : Rotation α).turn p = r.turn p := by
  change max (r.spent k p) 1 = max (r.slice p) 1
  rw [spent, if_neg (not_mem_take nodup place)]

/-- After the turns of the first `k` members the list has turned by `k` places. -/
theorem ticks_delay (nodup : r.order.Nodup) {k : Nat} (inside : k ≤ r.order.length) :
    tick^[r.delay k] r = ⟨r.order.rotate k, r.spent k⟩ := by
  induction k with
  | zero =>
      have full : r.spent 0 = r.slice := by
        funext q
        simp [spent]
      rw [delay_zero, Function.iterate_zero_apply, List.rotate_zero, full]
  | succ k ih =>
      obtain ⟨p, place⟩ : ∃ p, r.order[k]? = some p := ⟨_, List.getElem?_eq_getElem inside⟩
      have front := rotate_front place
      have same := turn_spent nodup place (r.order.rotate k)
      rw [delay_succ place, Nat.add_comm, Function.iterate_add_apply, ih (by omega), ← same, ticks_turn front,
        ← List.rotate_rotate, front, List.rotate_cons_succ, List.rotate_zero]
      congr 1
      funext q
      rw [spent, List.take_add_one, place, Option.toList_some, Function.update_apply]
      by_cases own : q = p
      · simp [own]
      · simp [own, spent]

/-- While the turn of the member at place `k` lasts, that member is the first. -/
theorem ticks_during (nodup : r.order.Nodup) {k : Nat} (inside : k < r.order.length) (late : r.delay k ≤ n)
    (early : n < r.delay (k + 1)) : (tick^[n] r).order = r.order.rotate k := by
  obtain ⟨p, place⟩ : ∃ p, r.order[k]? = some p := ⟨_, List.getElem?_eq_getElem inside⟩
  obtain ⟨more, rfl⟩ := Nat.exists_eq_add_of_le' late
  have front := rotate_front place
  have same := turn_spent nodup place (r.order.rotate k)
  rw [delay_succ place] at early
  rw [Function.iterate_add_apply, ticks_delay nodup inside.le, ticks_stay front (by omega), front]

/-- Once every slice is empty, each tick turns the list by one place. -/
theorem ticks_spent (empty : ∀ q ∈ r.order, r.slice q = 0) (n : Nat) :
    tick^[n] r = ⟨r.order.rotate n, r.slice⟩ := by
  induction n with
  | zero => rw [Function.iterate_zero_apply, List.rotate_zero]
  | succ n ih =>
      rw [Function.iterate_succ_apply', ih, ← List.rotate_rotate]
      cases front : r.order.rotate n with
      | nil => rw [tick, List.rotate_nil]
      | cons p rest =>
          have none : r.slice p = 0 := by
            apply empty
            rw [← List.mem_rotate (n := n), front]
            exact List.mem_cons_self
          have last : (⟨p :: rest, r.slice⟩ : Rotation α).slice p ≤ 1 := none.trans_le (Nat.zero_le 1)
          rw [tick_passes rfl last, List.rotate_cons_succ, List.rotate_zero]
          dsimp only
          rw [← none, Function.update_eq_self]

/-- After the first round each member is served for one tick in every round. -/
theorem ticks_round (nodup : r.order.Nodup) (n : Nat) :
    (tick^[n + r.delay r.order.length] r).order = r.order.rotate n := by
  rw [Function.iterate_add_apply, ticks_delay nodup le_rfl, List.rotate_length, ticks_spent]
  intro q member
  exact if_pos (by rwa [List.take_length])

end Ticks

end Rotation

end OsKernel.Library
