import OsKernel.Fs.FileApi
import OsKernel.Library.Runs

/-
This file shows that `fs_lseek` computes exact positions, although it adds an unsigned word and a signed one.
A sum that does not fit is negative after its conversion, and then the only range check refuses it.
-/

namespace OsKernel.Fs
open Library

/-- The values of the signed type `off_t`. -/
def IsOffset (offset : Int) : Prop := -2 ^ 63 ≤ offset ∧ offset < 2 ^ 63

/-- The arguments of one call of `fs_lseek`. -/
structure SeekCall where
  fd : Int
  offset : Int
  whence : Int

section Seeks

variable {D : Type}

/-- A file without an own `lseek` gets the default one. -/
def UsesDefault (code : Code D) (s : Vfs D) (file : Addr) : Prop :=
  (operations code s file).bind FileOperations.lseek = none

/-- What a seek counts from, or nothing when `whence` is bad or the inode is missing. -/
def seekBase (seek : Seek) (s : Vfs D) (file : Addr) (whence : Int) : Option Int :=
  if whence = seek.set then some 0
  else if whence = seek.cur then some (s.file file).fPos
  else if whence = seek.fromEnd then (s.file file).inode.map fun i => (s.inode i).iSize
  else none

/-- Only the position of one file changes. -/
def Vfs.moveTo (s : Vfs D) (file : Addr) (pos : Nat) : Vfs D :=
  { s with file := Function.update s.file file { s.file file with fPos := pos } }

/-- The position and the size of a file fit into `off_t`. -/
structure Bounded (s : Vfs D) (file : Addr) : Prop where
  position : (s.file file).fPos ≤ 2 ^ 63 - 1
  size : ∀ i ∈ (s.file file).inode, (s.inode i).iSize ≤ 2 ^ 63 - 1

/-- The exact sum of the base and the offset is a position. -/
def Reachable (seek : Seek) (s : Vfs D) (file : Addr) (offset whence : Int) : Prop :=
  ∃ base ∈ seekBase seek s file whence, 0 ≤ base + offset ∧ base + offset ≤ 2 ^ 63 - 1

/-- A seek goes to the exact sum when that is a position, and else it fails and changes nothing. -/
structure SeeksExactly (code : Code D) (seek : Seek) (s : Vfs D) (fd : Int) (file : Addr) (offset whence : Int) :
    Prop where
  succeeds : (∃ base ∈ seekBase seek s file whence, fsLseek code seek s fd offset whence =
      (base + offset, s.moveTo file (base + offset).toNat)) ↔ Reachable seek s file offset whence
  fails : ¬ Reachable seek s file offset whence → fsLseek code seek s fd offset whence = (-eInval, s)

/-- A call of `fs_lseek` with any `whence` and a 64-bit offset, on a file without an own operation. -/
structure SeekStep (code : Code D) (seek : Seek) (s : Vfs D) (call : SeekCall) (s' : Vfs D) : Prop where
  offset : IsOffset call.offset
  plain : ∀ file ∈ openFile s call.fd, UsesDefault code s file
  moved : (fsLseek code seek s call.fd call.offset call.whence).2 = s'

variable {code : Code D} {seek : Seek} {s s' : Vfs D} {call : SeekCall} {file other : Addr} {fd offset whence : Int}
  {pos : Nat}

/-- A converted value is an `off_t`. -/
theorem offT_isOffset (x : Int) : IsOffset (offT x) := by
  simp only [IsOffset, offT, Int.bmod]
  split <;> omega

theorem offT_eq {x : Int} (word : IsOffset x) : offT x = x := by
  simp only [IsOffset] at word
  simp only [offT, Int.bmod]
  split <;> omega

/-- The sum of a position and an offset that is no position becomes negative. -/
theorem offT_sum_neg {base : Int} (lower : 0 ≤ base) (upper : base ≤ 2 ^ 63 - 1) (word : IsOffset offset)
    (outside : base + offset < 0 ∨ 2 ^ 63 - 1 < base + offset) : offT (base + offset) < 0 := by
  simp only [IsOffset] at word
  simp only [offT, Int.bmod]
  split <;> omega

/-- A bounded file counts from a position. -/
theorem Bounded.base (bounded : Bounded s file) {base : Int} (based : base ∈ seekBase seek s file whence) :
    0 ≤ base ∧ base ≤ 2 ^ 63 - 1 := by
  rw [seekBase] at based
  split at based
  next =>
      obtain rfl := Option.some.inj based
      exact ⟨by norm_num, by norm_num⟩
  next =>
      split at based
      next =>
          obtain rfl := Option.some.inj based
          have position := bounded.position
          exact ⟨by omega, by omega⟩
      next =>
          split at based
          next =>
              obtain ⟨i, held, rfl⟩ := Option.map_eq_some_iff.mp based
              have size := bounded.size i held
              exact ⟨by omega, by omega⟩
          next => cases based

/-- Whatever the offset counts from, the new position is the converted sum. -/
theorem newPosition_eq (word : IsOffset offset) : newPosition seek s file offset whence =
    (seekBase seek s file whence).map fun base => offT (base + offset) := by
  rw [newPosition, seekBase]
  split
  next => rw [Option.map_some, Int.zero_add, offT_eq word]
  next =>
      split
      next => rfl
      next =>
          split
          next =>
              rw [Option.map_map]
              rfl
          next => rfl

/-- Without an own operation the new position decides the result. -/
theorem fsLseek_default (opened : openFile s fd = some file) (plain : UsesDefault code s file) :
    fsLseek code seek s fd offset whence = match newPosition seek s file offset whence with
      | none => (-eInval, s)
      | some newPos => if newPos < 0 then (-eInval, s) else (newPos, s.moveTo file newPos.toNat) := by
  have own : (operations code s file).bind FileOperations.lseek = none := plain
  rw [fsLseek, opened]
  simp only [own]
  rfl

/-- A seek to a position goes there. -/
theorem fsLseek_reaches (opened : openFile s fd = some file) (plain : UsesDefault code s file)
    (word : IsOffset offset) (reachable : Reachable seek s file offset whence) :
    ∃ base ∈ seekBase seek s file whence, fsLseek code seek s fd offset whence =
      (base + offset, s.moveTo file (base + offset).toNat) := by
  obtain ⟨base, based, lower, upper⟩ := reachable
  refine ⟨base, based, ?_⟩
  have exact : offT (base + offset) = base + offset := offT_eq ⟨by omega, by omega⟩
  rw [fsLseek_default opened plain, newPosition_eq word, Option.mem_def.mp based, Option.map_some, exact]
  exact if_neg (by omega)

/-- Any other seek changes nothing. -/
theorem fsLseek_refuses (opened : openFile s fd = some file) (plain : UsesDefault code s file)
    (bounded : Bounded s file) (word : IsOffset offset) (outside : ¬ Reachable seek s file offset whence) :
    fsLseek code seek s fd offset whence = (-eInval, s) := by
  rw [fsLseek_default opened plain, newPosition_eq word]
  cases based : seekBase seek s file whence with
  | none => rfl
  | some base =>
      obtain ⟨lower, upper⟩ := bounded.base based
      have beyond : base + offset < 0 ∨ 2 ^ 63 - 1 < base + offset := by
        by_contra inside
        exact outside ⟨base, based, by omega, by omega⟩
      exact if_pos (offT_sum_neg lower upper word beyond)

/-- The default seek of a bounded file is exact. -/
theorem fsLseek_exact (opened : openFile s fd = some file) (plain : UsesDefault code s file)
    (bounded : Bounded s file) (word : IsOffset offset) : SeeksExactly code seek s fd file offset whence := by
  refine ⟨⟨?_, fsLseek_reaches opened plain word⟩, fsLseek_refuses opened plain bounded word⟩
  rintro ⟨base, based, moved⟩
  by_contra outside
  have refused := fsLseek_refuses opened plain bounded word outside
  -- The error exit returns one, so a sum that is no position cannot be returned there.
  have one : base + offset = 1 := congrArg Prod.fst (moved.symm.trans refused)
  exact outside ⟨base, based, by omega, by omega⟩

/-- The position after a seek is an `off_t`, whatever the file held before. -/
theorem newPosition_bounded {newPos : Int} (word : IsOffset offset)
    (found : newPosition seek s file offset whence = some newPos) : newPos ≤ 2 ^ 63 - 1 := by
  rw [newPosition_eq word] at found
  obtain ⟨base, _, rfl⟩ := Option.map_eq_some_iff.mp found
  exact Int.le_sub_one_of_lt (offT_isOffset (base + offset)).2

/-- A step changes nothing, or moves one file to a position that fits. -/
theorem SeekStep.moves (step : SeekStep code seek s call s') :
    s' = s ∨ ∃ other pos, s' = s.moveTo other pos ∧ pos ≤ 2 ^ 63 - 1 := by
  obtain ⟨word, plain, rfl⟩ := step
  cases opened : openFile s call.fd with
  | none =>
      left
      rw [fsLseek, opened]
  | some other =>
      rw [fsLseek_default opened (plain other opened)]
      split
      next => exact .inl rfl
      next newPos found =>
          have fits := newPosition_bounded word found
          split
          next => exact .inl rfl
          next => exact .inr ⟨other, newPos.toNat, rfl, by omega⟩

theorem openFile_moveTo : openFile (s.moveTo other pos) fd = openFile s fd := rfl

/-- A move keeps the operations of every file. -/
theorem UsesDefault.moveTo (plain : UsesDefault code s file) : UsesDefault code (s.moveTo other pos) file := by
  have same : ((s.moveTo other pos).file file).fOp = (s.file file).fOp := by
    simp only [Vfs.moveTo, Function.update_apply]
    split
    next here => rw [here]
    next => rfl
  rw [UsesDefault, operations, same]
  exact plain

/-- A move to a position that fits keeps every bounded file bounded. -/
theorem Bounded.moveTo (bounded : Bounded s file) (fits : pos ≤ 2 ^ 63 - 1) : Bounded (s.moveTo other pos) file := by
  by_cases here : file = other
  · subst here
    have held : (s.moveTo file pos).file file = { s.file file with fPos := pos } := Function.update_self _ _ _
    refine ⟨?_, ?_⟩
    · rw [held]
      exact fits
    · rw [held]
      exact bounded.size
  · have held : (s.moveTo other pos).file file = s.file file := Function.update_of_ne here _ _
    refine ⟨?_, ?_⟩
    · rw [held]
      exact bounded.position
    · rw [held]
      exact bounded.size

/-- The descriptor names a bounded file with the default seek. -/
structure Seekable (code : Code D) (fd : Int) (file : Addr) (s : Vfs D) : Prop where
  opened : openFile s fd = some file
  plain : UsesDefault code s file
  bounded : Bounded s file

theorem Seekable.step (seekable : Seekable code fd file s) (step : SeekStep code seek s call s') :
    Seekable code fd file s' := by
  rcases step.moves with rfl | ⟨other, pos, rfl, fits⟩
  · exact seekable
  · exact ⟨openFile_moveTo.trans seekable.opened, seekable.plain.moveTo, seekable.bounded.moveTo fits⟩

/-- Every run of seeks keeps the file seekable. -/
theorem run_seekable {s₀ : Vfs D} {calls : List SeekCall} (seekable : Seekable code fd file s₀)
    (run : Run (SeekStep code seek) s₀ calls s) : Seekable code fd file s := by
  apply run.invariant (fun _ => Seekable code fd file) seekable
  intro _ _ _ _ _ before step
  exact before.step step

end Seeks

/-- In every run of seeks the position fits into `off_t`, and the next seek is exact. -/
theorem lseek_run_exact {D : Type} {code : Code D} {seek : Seek} {s₀ s : Vfs D} {calls : List SeekCall} {fd : Int}
    {file : Addr} (opened : openFile s₀ fd = some file) (plain : UsesDefault code s₀ file)
    (bounded : Bounded s₀ file) (run : Run (SeekStep code seek) s₀ calls s) :
    (s.file file).fPos ≤ 2 ^ 63 - 1 ∧
      ∀ offset whence, IsOffset offset → SeeksExactly code seek s fd file offset whence := by
  have seekable := run_seekable ⟨opened, plain, bounded⟩ run
  refine ⟨seekable.bounded.position, ?_⟩
  intro offset whence word
  exact fsLseek_exact seekable.opened seekable.plain seekable.bounded word

/-- The sample goes to the position 5 and then two back. -/
theorem lseek_run_exact_sample : ∃ s,
    Run (SeekStep sampleCode sampleSeek) sampleVfs [⟨3, 5, 0⟩, ⟨3, -2, 1⟩] s ∧ (s.file 0).fPos = 3 ∧
      (s.file 0).fPos ≤ 2 ^ 63 - 1 ∧ SeeksExactly sampleCode sampleSeek s 3 0 (-4) 1 := by
  have plain (file : Addr) : UsesDefault sampleCode sampleVfs file := rfl
  have word (offset : Int) (lower : -8 ≤ offset) (upper : offset ≤ 8) : IsOffset offset := by
    rw [IsOffset]
    omega
  have first : SeekStep sampleCode sampleSeek sampleVfs ⟨3, 5, 0⟩ (sampleVfs.moveTo 0 5) :=
    ⟨word _ (by decide) (by decide), fun file _ => plain file, rfl⟩
  have second : SeekStep sampleCode sampleSeek (sampleVfs.moveTo 0 5) ⟨3, -2, 1⟩
      ((sampleVfs.moveTo 0 5).moveTo 0 3) := ⟨word _ (by decide) (by decide), fun file _ => (plain file).moveTo, rfl⟩
  have run : Run (SeekStep sampleCode sampleSeek) sampleVfs [⟨3, 5, 0⟩, ⟨3, -2, 1⟩] _ := .snoc (.snoc .nil first) second
  have bounded : Bounded sampleVfs 0 := ⟨by decide, fun i held => by cases held⟩
  have opened : openFile sampleVfs 3 = some 0 := rfl
  obtain ⟨position, exact⟩ := lseek_run_exact opened (plain 0) bounded run
  exact ⟨_, run, rfl, position, exact (-4) 1 (word _ (by decide) (by decide))⟩

end OsKernel.Fs
