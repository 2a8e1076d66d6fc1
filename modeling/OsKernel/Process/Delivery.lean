import OsKernel.Process.Transitions

/-
This file keeps the accounts of exit codes.
Each pid exits at most once, and its code is delivered at most once and unchanged.
-/

namespace OsKernel.Proc
open OsKernel.Library

variable {H : Type} {A : Allocator H} {base : Finset Addr} {m m' : Machine H} {f f' : Fifo Addr}
  {op : Op}

/-- The codes that the process with this pid passed to `process_exit`. -/
def exits (log : List Event) (pid : Int) : List Int :=
  log.filterMap fun event => match event with
    | .exited number code => if number = pid then some code else none
    | .waited _ _ _ _ => none

/-- The calls of `process_wait` for this pid that returned 0, with what they stored. -/
def deliveries (log : List Event) (pid : Int) : List (Bool × WaitReturn) :=
  log.filterMap fun event => match event with
    | .exited _ _ => none
    | .waited _ number want value =>
        if number = pid ∧ value.result = 0 then some (want, value) else none

@[simp] theorem exits_append (log rest : List Event) (pid : Int) :
    exits (log ++ rest) pid = exits log pid ++ exits rest pid := List.filterMap_append

@[simp] theorem deliveries_append (log rest : List Event) (pid : Int) :
    deliveries (log ++ rest) pid = deliveries log pid ++ deliveries rest pid := List.filterMap_append

@[simp] theorem exits_exited (number code pid : Int) :
    exits [.exited number code] pid = if number = pid then [code] else [] := by
  by_cases same : number = pid
  · simp [exits, same]
  · simp [exits, same]

@[simp] theorem exits_waited (waiter : Option Addr) (number : Int) (want : Bool) (value : WaitReturn)
    (pid : Int) : exits [.waited waiter number want value] pid = [] := rfl

@[simp] theorem deliveries_exited (number code pid : Int) :
    deliveries [.exited number code] pid = [] := rfl

@[simp] theorem deliveries_waited (waiter : Option Addr) (number : Int) (want : Bool)
    (value : WaitReturn) (pid : Int) :
    deliveries [.waited waiter number want value] pid =
      if number = pid ∧ value.result = 0 then [(want, value)] else [] := by
  by_cases same : number = pid ∧ value.result = 0
  · simp [deliveries, same]
  · simp only [deliveries, List.filterMap_cons, if_neg same, List.filterMap_nil]

/-- The pid of this task is not that of another. -/
def Kernel.Holds (s : Kernel H) (p : Addr) (pid : Int) : Prop := s.InTable p ∧ (s.procs p).pid = pid

/-- A pid is not in use, belongs to a task that runs on, has exited or was delivered. -/
inductive Account (s : Kernel H) (log : List Event) (pid : Int) : Prop
  | unused (absent : ∀ p, ¬ s.Holds p pid) (noExit : exits log pid = [])
      (noDelivery : deliveries log pid = [])
  | alive (p : Addr) (holds : s.Holds p pid) (runs : (s.procs p).state ≠ .terminated)
      (noExit : exits log pid = []) (noDelivery : deliveries log pid = [])
  | dead (p : Addr) (holds : s.Holds p pid) (ended : (s.procs p).state = .terminated)
      (exited : exits log pid = [(s.procs p).exitCode]) (noDelivery : deliveries log pid = [])
  | delivered (code : Int) (want : Bool) (absent : ∀ p, ¬ s.Holds p pid)
      (exited : exits log pid = [code])
      (delivery : deliveries log pid = [(want, ⟨0, if want then some code else none⟩)])

/-- Only the tasks with the pid and the entries about it matter to an account. -/
theorem Account.congr {s s' : Kernel H} {log log' : List Event} {pid : Int}
    (account : Account s log pid) (holds : ∀ p, s'.Holds p pid ↔ s.Holds p pid)
    (ended : ∀ p, s.Holds p pid →
      ((s'.procs p).state = .terminated ↔ (s.procs p).state = .terminated))
    (codes : ∀ p, s.Holds p pid → (s.procs p).state = .terminated →
      (s'.procs p).exitCode = (s.procs p).exitCode)
    (exitsSame : exits log' pid = exits log pid)
    (deliveriesSame : deliveries log' pid = deliveries log pid) : Account s' log' pid := by
  cases account with
  | unused absent noExit noDelivery =>
      exact .unused (fun p => (holds p).not.mpr (absent p)) (exitsSame.trans noExit)
        (deliveriesSame.trans noDelivery)
  | alive p held runs noExit noDelivery =>
      exact .alive p ((holds p).mpr held) ((ended p held).not.mpr runs) (exitsSame.trans noExit)
        (deliveriesSame.trans noDelivery)
  | dead p held stopped exited noDelivery =>
      refine .dead p ((holds p).mpr held) ((ended p held).mpr stopped) ?_
        (deliveriesSame.trans noDelivery)
      rw [exitsSame, exited, codes p held stopped]
  | delivered code want absent exited delivery =>
      exact .delivered code want (fun p => (holds p).not.mpr (absent p)) (exitsSame.trans exited)
        (deliveriesSame.trans delivery)

/-- The account of a running task is open. -/
theorem Account.of_running {s : Kernel H} {log : List Event} {pid : Int} {p : Addr}
    (account : Account s log pid) {issued : Nat} (numbered : Numbered issued s)
    (held : s.Holds p pid) (runs : (s.procs p).state ≠ .terminated) :
    exits log pid = [] ∧ deliveries log pid = [] := by
  cases account with
  | unused absent _ _ => exact absurd held (absent p)
  | alive _ _ _ noExit noDelivery => exact ⟨noExit, noDelivery⟩
  | dead q other stopped _ _ =>
      have same := numbered.distinct p q held.1 other.1 (held.2.trans other.2.symm)
      exact absurd (same ▸ stopped) runs
  | delivered _ _ absent _ _ => exact absurd held (absent p)

/-- The account of a terminated task shows its code and no delivery. -/
theorem Account.of_terminated {s : Kernel H} {log : List Event} {pid : Int} {p : Addr}
    (account : Account s log pid) {issued : Nat} (numbered : Numbered issued s)
    (held : s.Holds p pid) (stopped : (s.procs p).state = .terminated) :
    exits log pid = [(s.procs p).exitCode] ∧ deliveries log pid = [] := by
  cases account with
  | unused absent _ _ => exact absurd held (absent p)
  | alive q other runs _ _ =>
      have same := numbered.distinct p q held.1 other.1 (held.2.trans other.2.symm)
      exact absurd stopped (same ▸ runs)
  | dead q other _ exited noDelivery =>
      have same := numbered.distinct p q held.1 other.1 (held.2.trans other.2.symm)
      exact ⟨same ▸ exited, noDelivery⟩
  | delivered _ _ absent _ _ => exact absurd held (absent p)

/-- Every account is in order, and no entry is about a pid that was never issued. -/
structure Ledger (issued : Nat) (m : Machine H) : Prop where
  numbered : Numbered issued m.kernel
  account : ∀ pid, Account m.kernel m.log pid
  fresh : ∀ pid : Int, issued < pid → exits m.log pid = [] ∧ deliveries m.log pid = []

/-- An unchanged table keeps the pids of its tasks. -/
theorem TableEffect.holds_iff {s s' : Kernel H} (effect : TableEffect s op s')
    (tasks : s'.task = s.task) (p : Addr) (pid : Int) : s'.Holds p pid ↔ s.Holds p pid := by
  unfold Kernel.Holds
  rw [Kernel.inTable_congr tasks]
  exact and_congr_right fun member => by rw [effect.pid member]

/-- A step that neither exits, creates nor reaps keeps every account. -/
theorem Ledger.quiet {issued issued' : Nat} (ledger : Ledger issued m)
    (inv : KernelInv A base m.kernel f) (effect : Effect A m op m') (more : issued ≤ issued')
    (numbered : Numbered issued' m'.kernel) (tasks : m'.kernel.task = m.kernel.task)
    (exitsSame : ∀ pid, exits m'.log pid = exits m.log pid)
    (deliveriesSame : ∀ pid, deliveries m'.log pid = deliveries m.log pid) : Ledger issued' m' := by
  refine ⟨numbered, ?_, ?_⟩
  · intro pid
    refine (ledger.account pid).congr (fun p => (effect.table inv).holds_iff tasks p pid) ?_ ?_
      (exitsSame pid) (deliveriesSame pid)
    · intro p held
      refine ⟨fun ended => ?_, fun ended => (effect.terminated_stays inv held.1 ended).1⟩
      rcases effect.terminated_origin inv held.1 ended with earlier | ⟨_, ⟨code, _, _, logged⟩, _⟩
      · exact earlier
      · have clash := exitsSame (m.kernel.procs p).pid
        simp [logged] at clash
    · exact fun p held ended => (effect.terminated_stays inv held.1 ended).2
  · intro pid unissued
    rw [exitsSame, deliveriesSame]
    exact ledger.fresh pid (by omega)

theorem Ledger.created {issued : Nat} (ledger : Ledger issued m) {kernel : Kernel H} {p : Addr}
    (numbered : Numbered (issued + 1) kernel) (admitted : Admitted m.kernel kernel p)
    (room : issued + 1 < 2 ^ 31) (ready : (kernel.procs p).state = .ready)
    (states : ∀ q, q ≠ p → (kernel.procs q).state = (m.kernel.procs q).state) :
    Ledger (issued + 1) { m with kernel := kernel } := by
  have next : m.kernel.nextPid = issued + 1 :=
    ledger.numbered.nextPid.trans (wrapPid_eq _ (by omega) (by omega))
  have number : (kernel.procs p).pid = issued + 1 := admitted.pid.trans next
  have member : kernel.InTable p := (admitted.inTable p).mpr (Or.inl rfl)
  have kept : ∀ q, m.kernel.InTable q → q ≠ p := fun q old same => admitted.absent (same ▸ old)
  refine ⟨numbered, ?_, fun pid unissued => ledger.fresh pid (by push_cast at unissued; omega)⟩
  intro pid
  by_cases new : pid = issued + 1
  · obtain ⟨noExit, noDelivery⟩ := ledger.fresh pid (by omega)
    exact .alive p ⟨member, number.trans new.symm⟩ (by rw [ready]; decide) noExit noDelivery
  · refine (ledger.account pid).congr ?_ ?_ ?_ rfl rfl
    · intro q
      have same (old : m.kernel.InTable q) : (kernel.procs q).pid = (m.kernel.procs q).pid := by
        have field := congrArg Process.pid (admitted.others q (kept q old))
        exact field
      constructor
      · rintro ⟨present, matching⟩
        rcases (admitted.inTable q).mp present with rfl | old
        · exact absurd (matching.symm.trans number) new
        · exact ⟨old, (same old).symm.trans matching⟩
      · rintro ⟨old, matching⟩
        exact ⟨(admitted.inTable q).mpr (Or.inr old), (same old).trans matching⟩
    · intro q held
      rw [states q (kept q held.1)]
    · intro q held _
      have field := congrArg Process.exitCode (admitted.others q (kept q held.1))
      exact field

/-- An exit opens one entry in the account of its process. -/
theorem Ledger.exited {issued : Nat} (ledger : Ledger issued m) (inv : KernelInv A base m.kernel f)
    {code : Int} {cur : Addr} (effect : Effect A m (.exit code) m')
    (numbered : Numbered issued m'.kernel) (current : m.kernel.current = some cur)
    (tasks : m'.kernel.task = m.kernel.task) (ended : (m'.kernel.procs cur).state = .terminated)
    (stored : (m'.kernel.procs cur).exitCode = code)
    (logged : m'.log = m.log ++ [.exited (m.kernel.procs cur).pid code]) : Ledger issued m' := by
  have member := inv.inTable_of_current current
  have running := inv.running_of_current current
  have holds := (effect.table inv).holds_iff tasks
  refine ⟨numbered, ?_, ?_⟩
  · intro pid
    by_cases own : (m.kernel.procs cur).pid = pid
    · obtain ⟨noExit, noDelivery⟩ :=
        (ledger.account pid).of_running ledger.numbered ⟨member, own⟩ (by rw [running]; decide)
      refine .dead cur ((holds cur pid).mpr ⟨member, own⟩) ended ?_ ?_
      · simp [logged, own, noExit, stored]
      · simp [logged, noDelivery]
    · refine (ledger.account pid).congr (fun p => holds p pid) ?_ ?_ (by simp [logged, own])
        (by simp [logged])
      · intro p held
        refine ⟨fun stopped => ?_, fun stopped => (effect.terminated_stays inv held.1 stopped).1⟩
        rcases effect.terminated_origin inv held.1 stopped with earlier | ⟨same, _⟩
        · exact earlier
        · rw [current, Option.some.injEq] at same
          exact absurd (same ▸ held.2) own
      · exact fun p held stopped => (effect.terminated_stays inv held.1 stopped).2
  · intro pid unissued
    have bounds := ledger.numbered.range cur member
    have other : (m.kernel.procs cur).pid ≠ pid := by omega
    obtain ⟨noExit, noDelivery⟩ := ledger.fresh pid unissued
    simp [logged, other, noExit, noDelivery]

/-- A reap closes the account of its target. -/
theorem Ledger.reaped {issued : Nat} (ledger : Ledger issued m) (inv : KernelInv A base m.kernel f)
    {pid : Int} {want : Bool} {target : Addr} {kernel : Kernel H} (numbered : Numbered issued kernel)
    (found : findTask m.kernel pid = some target)
    (dead : (m.kernel.procs target).state = .terminated) (reaped : Reaped m.kernel kernel target) :
    Ledger issued (m.finishWait pid want
      (⟨0, if want then some (m.kernel.procs target).exitCode else none⟩, kernel)) := by
  obtain ⟨member, number⟩ := findTask_some found
  obtain ⟨exited, noDelivery⟩ :=
    (ledger.account pid).of_terminated ledger.numbered ⟨member, number⟩ dead
  have remaining : ∀ q, kernel.InTable q ↔ m.kernel.InTable q ∧ q ≠ target := reaped.inTable inv.table
  refine ⟨numbered, ?_, ?_⟩
  · intro other
    rw [Machine.finishWait_kernel, Machine.finishWait_log]
    by_cases own : pid = other
    · subst own
      refine .delivered (m.kernel.procs target).exitCode want ?_ ?_ ?_
      · rintro q ⟨present, matching⟩
        obtain ⟨old, different⟩ := (remaining q).mp present
        rw [reaped.procs] at matching
        exact different (ledger.numbered.distinct q target old member (matching.trans number.symm))
      · simp [exited]
      · simp [noDelivery]
    · refine (ledger.account other).congr ?_ ?_ ?_ (by simp) (by simp [own])
      · intro q
        unfold Kernel.Holds
        rw [remaining, reaped.procs]
        constructor
        · rintro ⟨⟨old, _⟩, matching⟩
          exact ⟨old, matching⟩
        · rintro ⟨old, matching⟩
          refine ⟨⟨old, ?_⟩, matching⟩
          intro same
          exact own (number.symm.trans (same ▸ matching))
      · intro q _
        rw [reaped.procs]
      · intro q _ _
        rw [reaped.procs]
  · intro other unissued
    have bounds := ledger.numbered.range target member
    have different : pid ≠ other := by omega
    obtain ⟨noExit, closed⟩ := ledger.fresh other unissued
    simp [different, noExit, closed]

/-- Every step keeps the accounts in order. -/
theorem Ledger.step {issued issued' : Nat} (ledger : Ledger issued m)
    (inv : KernelInv A base m.kernel f) (effect : Effect A m op m')
    (result : issued' = issued ∧ Numbered issued m'.kernel ∨
      op.isCreate = true ∧ issued' = issued + 1 ∧ Numbered (issued + 1) m'.kernel)
    (room : op.isCreate = true → issued + 1 < 2 ^ 31) : Ledger issued' m' := by
  have numbered : Numbered issued' m'.kernel := by
    rcases result with ⟨rfl, same⟩ | ⟨_, rfl, next⟩
    · exact same
    · exact next
  have more : issued ≤ issued' := by
    rcases result with ⟨rfl, _⟩ | ⟨_, rfl, _⟩
    · exact le_refl _
    · omega
  have kept (other : op.isCreate = false) : issued' = issued := by
    rcases result with ⟨same, _⟩ | ⟨create, _⟩
    · exact same
    · rw [other] at create
      cases create
  have silent (tasks : m'.kernel.task = m.kernel.task) (log : m'.log = m.log) : Ledger issued' m' :=
    ledger.quiet inv effect more numbered tasks (fun _ => by rw [log]) fun _ => by rw [log]
  have whole := effect
  cases effect with
  | createFailed failed => exact silent failed.task rfl
  | @created _ _ _ kernel p admitted ready states =>
      rcases result with ⟨rfl, same⟩ | ⟨_, rfl, next⟩
      · have unwrapped : m.kernel.nextPid = issued' + 1 :=
          ledger.numbered.nextPid.trans (wrapPid_eq _ (by omega) (by have := room rfl; omega))
        have bounds := same.range p ((admitted.inTable p).mpr (Or.inl rfl))
        have number : (kernel.procs p).pid = issued' + 1 := admitted.pid.trans unwrapped
        exact absurd bounds.2 (by rw [number]; omega)
      · exact ledger.created next admitted (room rfl) ready states
  | dispatched _ dispatch => exact silent dispatch.same.task rfl
  | woken advance _ => exact silent advance.same.task rfl
  | blocked _ _ _ dispatch => exact silent dispatch.same.task rfl
  | suspended _ _ _ _ _ _ dispatch => exact silent dispatch.same.task rfl
  | @exited code cur _ current _ _ advance _ =>
      have exiting := inv.exiting code current
      have same := kept rfl
      subst same
      refine ledger.exited inv whole numbered current (advance.same.task.trans exiting.task) ?_ ?_ rfl
      · rw [advance.terminated, exiting.process]
      · rw [advance.same.exitCode, exiting.process]
  | waitFailed _ _ _ =>
      exact ledger.quiet inv whole more numbered rfl (fun _ => by simp) fun _ => by simp
  | reaped _ call found dead reaped =>
      have same := kept call.not_create
      subst same
      exact ledger.reaped inv numbered found dead reaped

/-- A task that leaves the table has just been delivered. -/
theorem Effect.leaves {p : Addr} (effect : Effect A m op m') (inv : KernelInv A base m.kernel f)
    (member : m.kernel.InTable p) (gone : ¬ m'.kernel.InTable p) :
    deliveries m'.log (m.kernel.procs p).pid ≠ [] := by
  have stays (tasks : m'.kernel.task = m.kernel.task) : False :=
    gone ((Kernel.inTable_congr tasks p).mpr member)
  cases effect with
  | createFailed failed => exact (stays failed.task).elim
  | created admitted _ _ => exact absurd ((admitted.inTable p).mpr (Or.inr member)) gone
  | dispatched _ dispatch => exact (stays dispatch.same.task).elim
  | woken advance _ => exact (stays advance.same.task).elim
  | blocked _ _ _ dispatch => exact (stays dispatch.same.task).elim
  | suspended _ _ _ _ _ _ dispatch => exact (stays dispatch.same.task).elim
  | @exited code _ _ current _ _ advance _ =>
      exact (stays (advance.same.task.trans (inv.exiting code current).task)).elim
  | waitFailed _ _ _ => exact (stays rfl).elim
  | @reaped _ pid _ _ target _ _ _ found _ reaped =>
      have same : p = target := by
        by_contra different
        exact gone ((reaped.inTable inv.table p).mpr ⟨member, different⟩)
      simp [same, (findTask_some found).2]

/-- The log only grows. -/
theorem Effect.log_grows (effect : Effect A m op m') : ∃ events, m'.log = m.log ++ events := by
  cases effect with
  | createFailed _ => exact ⟨[], by simp⟩
  | created _ _ _ => exact ⟨[], by simp⟩
  | dispatched _ _ => exact ⟨[], by simp⟩
  | woken _ _ => exact ⟨[], by simp⟩
  | blocked _ _ _ _ => exact ⟨[], by simp⟩
  | suspended _ _ _ _ _ _ _ => exact ⟨[], by simp⟩
  | exited _ _ _ _ _ => exact ⟨_, rfl⟩
  | waitFailed _ _ _ => exact ⟨_, rfl⟩
  | reaped _ _ _ _ _ => exact ⟨_, rfl⟩

variable {heap : H} {start : Machine H} {ops : List Op}

/-- The accounts are in order in every state of every FIFO run with fewer than `2 ^ 31` creations. -/
theorem fifo_run_ledger (booted : Booted A heap start)
    (run : Run (Disciplined A fifoAllow) start ops m) (few : ops.countP Op.isCreate < 2 ^ 31) :
    ∃ issued ≤ ops.countP Op.isCreate, Ledger issued m := by
  revert few
  refine run.invariant (fun ops m => ops.countP Op.isCreate < 2 ^ 31 →
    ∃ issued ≤ ops.countP Op.isCreate, Ledger issued m) ?_ ?_
  · intro _
    obtain ⟨procs, contexts, kernel, initialised, rfl⟩ := booted
    obtain ⟨idle, stack, ctx, started⟩ := processInit_started initialised
    refine ⟨0, Nat.zero_le _, started.numbered, ?_, fun _ _ => ⟨rfl, rfl⟩⟩
    intro pid
    by_cases zero : pid = 0
    · refine .alive idle ⟨(started.inTable idle).mpr rfl, ?_⟩ ?_ rfl rfl
      · change (kernel.procs idle).pid = pid
        rw [started.process, zero]
        rfl
      · change (kernel.procs idle).state ≠ .terminated
        simp [started.process, idleProcess]
    · refine .unused ?_ rfl rfl
      rintro p ⟨member, matching⟩
      have only : p = idle := (started.inTable p).mp member
      change (kernel.procs p).pid = pid at matching
      rw [only, started.process] at matching
      exact zero matching.symm
  · intro labels s op s' earlier holds taken few
    rw [List.countP_append, List.countP_singleton] at few ⊢
    obtain ⟨issued, bounded, ledger⟩ := holds (by omega)
    obtain ⟨f, inv⟩ := fifo_run_inv booted earlier
    obtain ⟨⟨f', inv'⟩, effect⟩ := inv.step taken
    have room : op.isCreate = true → issued + 1 < 2 ^ 31 := by
      intro create
      rw [if_pos create] at few
      omega
    rcases ledger.numbered.step inv.table inv'.table (effect.table inv) room with
      same | ⟨create, next⟩
    · exact ⟨issued, by omega, ledger.step inv effect (Or.inl ⟨rfl, same⟩) room⟩
    · exact ⟨issued + 1, by rw [if_pos create]; omega,
        ledger.step inv effect (Or.inr ⟨create, rfl, next⟩) room⟩

/-- Each pid exits at most once, and at most one wait receives its code, as it was given. -/
def DeliveredOnce (log : List Event) (pid : Int) : Prop :=
  (exits log pid).length ≤ 1 ∧ (deliveries log pid).length ≤ 1 ∧
    ∀ want value, (want, value) ∈ deliveries log pid →
      ∃ code, exits log pid = [code] ∧ value.stored = if want then some code else none

theorem Account.deliveredOnce {s : Kernel H} {log : List Event} {pid : Int}
    (account : Account s log pid) : DeliveredOnce log pid := by
  unfold DeliveredOnce
  cases account with
  | unused _ noExit noDelivery => simp [noExit, noDelivery]
  | alive _ _ _ noExit noDelivery => simp [noExit, noDelivery]
  | dead _ _ _ exited noDelivery => simp [exited, noDelivery]
  | delivered code want _ exited delivery => simp [exited, delivery]

/-- The task has terminated with this code and does not run. -/
def Resting (m : Machine H) (p : Addr) (pid code : Int) : Prop :=
  m.kernel.Holds p pid ∧ (m.kernel.procs p).state = .terminated ∧
    (m.kernel.procs p).exitCode = code ∧ m.kernel.current ≠ some p

theorem Resting.step {p : Addr} {pid code : Int} (resting : Resting m p pid code)
    (inv : KernelInv A base m.kernel f) (inv' : KernelInv A base m'.kernel f')
    (effect : Effect A m op m') (undelivered : deliveries m'.log pid = []) : Resting m' p pid code := by
  obtain ⟨⟨member, number⟩, ended, stored, _⟩ := resting
  obtain ⟨ended', stored'⟩ := effect.terminated_stays inv member ended
  have present : m'.kernel.InTable p := by
    by_contra gone
    exact effect.leaves inv member gone (number ▸ undelivered)
  refine ⟨⟨present, ((effect.table inv).pid member).trans number⟩, ended', stored'.trans stored, ?_⟩
  intro current
  rw [inv'.running_of_current current] at ended'
  cases ended'

/-- In a FIFO run with fewer than `2 ^ 31` creations an exit code is delivered at most once and
unchanged, and a terminated task rests until then. -/
theorem fifo_run_deliveredOnce (booted : Booted A heap start)
    (run : Run (Disciplined A fifoAllow) start ops m) (few : ops.countP Op.isCreate < 2 ^ 31) :
    (∀ pid, DeliveredOnce m.log pid) ∧
      ∀ p pid, m.kernel.Holds p pid → (m.kernel.procs p).state = .terminated →
        ∀ later m', Run (Disciplined A fifoAllow) m later m' → deliveries m'.log pid = [] →
          Resting m' p pid (m.kernel.procs p).exitCode := by
  obtain ⟨issued, _, ledger⟩ := fifo_run_ledger booted run few
  refine ⟨fun pid => (ledger.account pid).deliveredOnce, ?_⟩
  intro p pid held ended later m' continued
  refine continued.invariant (fun _ m' => deliveries m'.log pid = [] →
    Resting m' p pid (m.kernel.procs p).exitCode) ?_ ?_
  · intro _
    obtain ⟨f, inv⟩ := fifo_run_inv booted run
    refine ⟨held, ended, rfl, ?_⟩
    intro current
    rw [inv.running_of_current current] at ended
    cases ended
  · intro labels s op s' middle holds taken undelivered
    obtain ⟨f, inv⟩ := fifo_run_inv booted (run.append middle)
    obtain ⟨⟨f', inv'⟩, effect⟩ := inv.step taken
    obtain ⟨events, grown⟩ := effect.log_grows
    have before : deliveries s.log pid = [] := by
      rw [grown, deliveries_append, List.append_eq_nil_iff] at undelivered
      exact undelivered.1
    exact (holds before).step inv inv' effect undelivered

/-- Two processes wait for the same target, and only one of them receives its code. -/
theorem fifo_run_deliveredOnce_sample :
    ∃ m, Run (Disciplined sampleAllocator fifoAllow) sampleStart
        [.create (some 7) 0 2, .create (some 7) 0 2, .create (some 7) 0 2, .schedule, .wait 3 true,
          .wait 3 true, .exit 9, .schedule, .resume, .schedule, .resume] m ∧
      deliveries m.log 3 = [(true, ⟨0, some 9⟩)] ∧ ∀ pid, DeliveredOnce m.log pid := by
  obtain ⟨m, run, found⟩ := exists_run sampleAllocator fifoAllow 20 sampleStart
    [.create (some 7) 0 2, .create (some 7) 0 2, .create (some 7) 0 2, .schedule, .wait 3 true,
      .wait 3 true, .exit 9, .schedule, .resume, .schedule, .resume]
    (fun m => deliveries m.log 3 == [(true, ⟨0, some 9⟩)]) (by decide +kernel)
  exact ⟨m, run, by simpa using found,
    (fifo_run_deliveredOnce sampleStart_booted run (by decide)).1⟩

end OsKernel.Proc
