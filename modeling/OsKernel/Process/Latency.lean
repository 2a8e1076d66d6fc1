import OsKernel.Library.Rotation
import OsKernel.Process.CpuTime
import OsKernel.Process.FifoOrder

/-
This file bounds the time that a ready process waits for the processor.
The bound is the sum of the turns in front of it; no operation lengthens the
wait, and a run of ticks alone meets the bound exactly.
-/

namespace OsKernel.Proc
open OsKernel.Library

variable {H : Type} {A : Allocator H} {base : Finset Addr} {s s' : Kernel H} {f f' : Fifo Addr}
  {m m' : Machine H} {op : Op} {p : Addr}

/-- The current process and the ready queue behind it, with the counters as time slices. -/
def rotation (s : Kernel H) : Rotation Addr := ⟨s.current.toList ++ readyList s, fun p => (s.procs p).counter⟩

theorem KernelInv.rotation_order (inv : KernelInv A base s f) : (rotation s).order = f.current :: f.queue := by
  rw [rotation, inv.simulates.current, inv.toLinked.readyList_eq]
  rfl

/-- Only tasks take part in the rotation. -/
theorem KernelInv.inTable_of_rotation (inv : KernelInv A base s f) (member : p ∈ (rotation s).order) :
    s.InTable p := by
  rw [inv.rotation_order, List.mem_cons] at member
  rcases member with rfl | queued
  · exact inv.current_inTable
  · exact ((inv.coherent.ready p).mp queued).1

theorem KernelInv.rotation_nodup (inv : KernelInv A base s f) : (rotation s).order.Nodup := by
  rw [inv.rotation_order]
  exact List.nodup_cons.mpr ⟨inv.coherent.current_not_mem inv.active, inv.coherent.nodup⟩

section Ticks

/-- The timer interrupt is one tick of the rotation. -/
theorem KernelInv.doTimer_rotation {fuel : Nat} (inv : KernelInv A base s f) (inv' : KernelInv A base s' f')
    (ran : OsKernel.Proc.doTimer fuel s = some s') : rotation s' = (rotation s).tick := by
  have order := inv.rotation_order
  have slices : (rotation s').slice = Function.update (rotation s).slice f.current
      ((rotation s).slice f.current - 1) := by
    funext q
    have counter := congrArg Clock.left (doTimer_clock ran q)
    change (s'.procs q).counter = _ at counter
    change (s'.procs q).counter = _
    rw [counter, inv.simulates.current, Function.update_apply]
    by_cases same : q = f.current
    · rw [if_pos (congrArg some same.symm), if_pos same, ← same]
      rfl
    · rw [if_neg fun equal => same (Option.some.inj equal).symm, if_neg same]
      rfl
  have moved : (rotation s').order = (rotation s).tick.order := by
    obtain ⟨_, ticked⟩ := inv.ticked
    have lower := tick_counter s f.current
    simp only [OsKernel.Proc.doTimer, inv.simulates.current] at ran
    rw [inv'.rotation_order]
    split at ran
    next spent =>
        have last : (rotation s).slice f.current ≤ 1 := by
          change (s.procs f.current).counter ≤ 1
          omega
        rw [Rotation.tick_passes order last]
        obtain rfl := inv'.simulates.unique (ticked.simulates.of_schedule ticked.coherent.sound ran)
        cases queue : f.queue with
        | nil => simp [Fifo.schedule, queue]
        | cons q rest =>
            have other : f.current ≠ q := by
              intro same
              exact inv.coherent.current_not_mem inv.active (by rw [queue, same]; simp)
            rw [Fifo.schedule_cons queue other, if_pos inv.status_current]
            rfl
    next more =>
        obtain rfl := Option.some.inj ran
        obtain rfl := inv'.simulates.unique ticked.simulates
        have left : 1 < (rotation s).slice f'.current := by
          change 1 < (s.procs f'.current).counter
          omega
        rw [Rotation.tick_stays order left]
  calc rotation s' = ⟨(rotation s').order, (rotation s').slice⟩ := rfl
    _ = ⟨(rotation s).tick.order, (rotation s).tick.slice⟩ := by rw [moved, slices, Rotation.tick_slice order]
    _ = (rotation s).tick := rfl

/-- A number of timer interrupts is the same number of ticks of the rotation. -/
theorem KernelInv.ticks (inv : KernelInv A base s f) (n : Nat) :
    ∃ s' f', Ticks n s s' ∧ KernelInv A base s' f' ∧ rotation s' = Rotation.tick^[n] (rotation s) := by
  induction n generalizing s f with
  | zero => exact ⟨s, f, rfl, inv, rfl⟩
  | succ n ih =>
      obtain ⟨fuel, t, g, ran, _, kept⟩ := inv.doTimer
      obtain ⟨s', f', later, inv', result⟩ := ih kept
      refine ⟨s', f', ⟨fuel, t, ran, later⟩, inv', ?_⟩
      rw [result, inv.doTimer_rotation kept ran, Function.iterate_succ_apply]

/-- The first round serves each place for its turn, and every later round serves each place for one tick. -/
structure Timeline (s : Kernel H) : Prop where
  first : ∀ k n p, (rotation s).order[k]? = some p → (rotation s).delay k ≤ n → n < (rotation s).delay (k + 1) →
    ∃ s', Ticks n s s' ∧ s'.current = some p
  later : ∀ n p, (rotation s).order[n % (rotation s).order.length]? = some p →
    ∃ s', Ticks (n + (rotation s).delay (rotation s).order.length) s s' ∧ s'.current = some p

/-- The process at the front of the rotation is current. -/
theorem KernelInv.current_of_rotation {k : Nat} {order : List Addr} (inv : KernelInv A base s f)
    (turned : (rotation s).order = order.rotate k) (place : order[k % order.length]? = some p) :
    s.current = some p := by
  have nonempty : order ≠ [] := by
    rintro rfl
    simp at place
  have front := congrArg List.head? turned
  rw [inv.rotation_order, List.head?_cons, ← List.rotate_mod,
    List.head?_rotate (Nat.mod_lt _ (List.length_pos_iff.mpr nonempty)), place] at front
  rw [inv.simulates.current, front]

theorem KernelInv.timeline (inv : KernelInv A base s f) : Timeline s where
  first := by
    intro k n p place late early
    have inside : k < (rotation s).order.length := (List.getElem?_eq_some_iff.mp place).1
    obtain ⟨s', f', ticks, inv', result⟩ := inv.ticks n
    have turned := Rotation.ticks_during inv.rotation_nodup inside late early
    rw [← result] at turned
    exact ⟨s', ticks, inv'.current_of_rotation turned (by rw [Nat.mod_eq_of_lt inside, place])⟩
  later := by
    intro n p place
    obtain ⟨s', f', ticks, inv', result⟩ := inv.ticks (n + (rotation s).delay (rotation s).order.length)
    have turned := Rotation.ticks_round inv.rotation_nodup n
    rw [← result] at turned
    exact ⟨s', ticks, inv'.current_of_rotation turned place⟩

end Ticks

section Steps

/-- The ticks that an operation charges. -/
def Op.charged (op : Op) : Nat := if op = .doTimer then 1 else 0

/-- Every step charges its ticks to the front of the rotation, and newcomers go to the end. -/
theorem KernelInv.advances (inv : KernelInv A base m.kernel f) (taken : Disciplined A fifoAllow m op m') :
    (rotation m.kernel).Advances op.charged (rotation m'.kernel) := by
  obtain ⟨⟨f', inv'⟩, _⟩ := inv.step taken
  by_cases tick : op = .doTimer
  · subst tick
    obtain ⟨_, _, fuel, ran⟩ := taken
    obtain ⟨s', ticked, rfl⟩ := Option.map_eq_some_iff.mp ran
    change (rotation m.kernel).Advances 1 (rotation s')
    rw [inv.doTimer_rotation inv' ticked]
    exact Rotation.tick_advances _
  · have same : ∀ q ∈ (rotation m.kernel).order, (rotation m'.kernel).slice q ≤ (rotation m.kernel).slice q := by
      intro q member
      have kept := inv.clock taken (inv.inTable_of_rotation member)
      rw [if_neg fun both => tick both.1] at kept
      exact le_of_eq (congrArg Clock.left kept)
    obtain ⟨g, new, simulates, serves, _⟩ := inv.turned taken
    obtain rfl := simulates.unique inv'.simulates
    rw [Op.charged, if_neg tick]
    cases serves with
    | stays current queue =>
        have longer : (rotation m'.kernel).order = (rotation m.kernel).order ++ new := by
          rw [inv'.rotation_order, inv.rotation_order, current, queue, List.cons_append]
        refine .stays longer same ?_
        intro q rest order _
        exact Rotation.turn_le (same q (by rw [order]; exact List.mem_cons_self))
    | @passes q rest front current _ queue =>
        have turned : (rotation m'.kernel).order = f.queue ++ new := by
          rw [inv'.rotation_order, current, queue, front, List.cons_append]
        refine .passes inv.rotation_order turned (fun q member => same q ?_) (Nat.zero_le 1)
        rw [inv.rotation_order]
        exact List.mem_cons_of_mem _ member

end Steps

section Runs

variable {heap : H} {start : Machine H} {ops later : List Op}

/-- The operations lead to a state in which `p` is current, after at most `n` ticks. -/
def ServedWithin (A : Allocator H) (m : Machine H) (ops : List Op) (m' : Machine H) (p : Addr) (n : Nat) : Prop :=
  ∃ before after m₁, ops = before ++ after ∧ Run (Disciplined A fifoAllow) m before m₁ ∧
    Run (Disciplined A fifoAllow) m₁ after m' ∧ m₁.kernel.current = some p ∧ before.count .doTimer ≤ n

/-- A ready process is served within its delay, or every tick has brought it nearer. -/
theorem KernelInv.served_or_nearer (inv : KernelInv A base m.kernel f) {k : Nat}
    (place : (rotation m.kernel).order[k + 1]? = some p) (run : Run (Disciplined A fifoAllow) m later m') :
    (∃ f', KernelInv A base m'.kernel f') ∧
      (ServedWithin A m later m' p ((rotation m.kernel).delay (k + 1)) ∨
        ∃ j, (rotation m'.kernel).order[j + 1]? = some p ∧
          (rotation m'.kernel).delay (j + 1) + later.count .doTimer ≤ (rotation m.kernel).delay (k + 1)) := by
  induction run with
  | nil => exact ⟨⟨f, inv⟩, .inr ⟨k, place, le_rfl⟩⟩
  | @snoc ops m₁ m₂ op earlier taken ih =>
      obtain ⟨⟨f₁, inv₁⟩, progress⟩ := ih
      obtain ⟨f₂, inv₂⟩ := (inv₁.step taken).1
      refine ⟨⟨f₂, inv₂⟩, ?_⟩
      rcases progress with ⟨before, after, m₀, parts, reached, rest, current, soon⟩ | ⟨j, waiting, nearer⟩
      · refine .inl ⟨before, after ++ [op], m₀, ?_, reached, rest.snoc taken, current, soon⟩
        rw [parts, List.append_assoc]
      · obtain ⟨i, _, moved, closer⟩ := (inv₁.advances taken).delay_le waiting
        have count : (ops ++ [op]).count .doTimer = ops.count .doTimer + op.charged := by
          rw [List.count_append, List.count_singleton]
          simp only [Op.charged, beq_iff_eq]
        cases i with
        | zero =>
            refine .inl ⟨ops ++ [op], [], m₂, (List.append_nil _).symm, earlier.snoc taken, .nil, ?_, ?_⟩
            · rw [inv₂.rotation_order, List.getElem?_cons_zero] at moved
              rw [inv₂.simulates.current, moved]
            · rw [Rotation.delay_zero] at closer
              omega
        | succ i => exact .inr ⟨i, moved, by omega⟩

/-- In every FIFO run a ready process is served before more ticks have come than the turns in front of it last,
whatever else the processes and the timer do in between. -/
theorem fifo_run_boundedWait (booted : Booted A heap start) (run : Run (Disciplined A fifoAllow) start ops m)
    {k : Nat} (place : (readyList m.kernel)[k]? = some p) (continued : Run (Disciplined A fifoAllow) m later m')
    (enough : (rotation m.kernel).delay (k + 1) ≤ later.count .doTimer) :
    ServedWithin A m later m' p ((rotation m.kernel).delay (k + 1)) := by
  obtain ⟨f, inv⟩ := fifo_run_inv booted run
  have waiting : (rotation m.kernel).order[k + 1]? = some p := by
    rw [inv.rotation_order, List.getElem?_cons_succ, ← inv.toLinked.readyList_eq, place]
  obtain ⟨_, served | ⟨j, still, nearer⟩⟩ := inv.served_or_nearer waiting continued
  · exact served
  · have inside : j + 1 < (rotation m'.kernel).order.length := (List.getElem?_eq_some_iff.mp still).1
    have ahead := Rotation.delay_pos inside
    omega

/-- Behind two processes with three ticks each, a yield and a creation in between, idle is served within six ticks. -/
theorem fifo_run_boundedWait_sample : ∃ m m',
    Run (Disciplined sampleAllocator fifoAllow) sampleStart
      [.create (some 7) 0 2, .create (some 7) 0 2, .schedule] m ∧ (readyList m.kernel)[1]? = some 100 ∧
    ServedWithin sampleAllocator m
      [.doTimer, .schedule, .doTimer, .create (some 7) 0 2, .doTimer, .doTimer, .doTimer, .doTimer] m' 100 6 := by
  obtain ⟨m, run, checked⟩ := exists_run sampleAllocator fifoAllow 20 sampleStart
    [.create (some 7) 0 2, .create (some 7) 0 2, .schedule]
    (fun m => decide ((readyList m.kernel)[1]? = some 100 ∧ (rotation m.kernel).delay 2 = 6 ∧
      (replay (next sampleAllocator fifoAllow 20) m [.doTimer, .schedule, .doTimer, .create (some 7) 0 2, .doTimer,
        .doTimer, .doTimer, .doTimer]).isSome)) (by decide +kernel)
  obtain ⟨place, delay, returns⟩ := of_decide_eq_true checked
  obtain ⟨m', replayed⟩ := Option.isSome_iff_exists.mp returns
  have served := fifo_run_boundedWait sampleStart_booted run place (run_of_replay next_sound replayed)
    (by rw [delay]; decide)
  rw [delay] at served
  exact ⟨m, m', run, place, served⟩

/-- In every state of a FIFO run the ticks to come serve the processes in the order of the queue, each for the rest of
its slice and, from the second round on, each for one tick. -/
theorem fifo_run_timeline (booted : Booted A heap start) (run : Run (Disciplined A fifoAllow) start ops m) :
    Timeline m.kernel := by
  obtain ⟨f, inv⟩ := fifo_run_inv booted run
  exact inv.timeline

/-- Idle runs for one tick, the two processes for three each, and then idle again. -/
theorem fifo_run_timeline_sample : ∃ m, Run (Disciplined sampleAllocator fifoAllow) sampleStart
      [.create (some 7) 0 2, .create (some 7) 0 2] m ∧ Timeline m.kernel ∧
    ∃ s', Ticks 7 m.kernel s' ∧ s'.current = some 100 := by
  obtain ⟨m, run, checked⟩ := exists_run sampleAllocator fifoAllow 20 sampleStart
    [.create (some 7) 0 2, .create (some 7) 0 2]
    (fun m => decide ((rotation m.kernel).order = [100, 103, 107] ∧ (rotation m.kernel).delay 3 = 7))
    (by decide +kernel)
  obtain ⟨order, delay⟩ := of_decide_eq_true checked
  have timeline := fifo_run_timeline sampleStart_booted run
  have again := timeline.later 0 100 (by rw [order]; rfl)
  rw [order, List.length_cons, List.length_cons, List.length_cons, List.length_nil, delay] at again
  exact ⟨m, run, timeline, again⟩

end Runs

end OsKernel.Proc
