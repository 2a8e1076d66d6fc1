import OsKernel.Fs.Vfs

/-
This file models the file operations of `fs_ops.c` and shows which results of failing calls a caller sees.
-/

namespace OsKernel.Fs

/-- The three constants of `whence` differ. -/
structure Seek where
  set : Int
  cur : Int
  fromEnd : Int
  setCur : set ≠ cur
  setEnd : set ≠ fromEnd
  curEnd : cur ≠ fromEnd

section Operations

variable {D : Type}

/-- A descriptor is valid when it names an open file. -/
def openFile (s : Vfs D) (fd : Int) : Option Addr :=
  if fd < 0 ∨ fd ≥ 256 then none else s.openFiles fd.toNat

/-- The operations of a file, if it has any. -/
def operations (code : Code D) (s : Vfs D) (file : Addr) : Option (FileOperations D) :=
  (s.file file).fOp.map code.operations

/-- `fs_open` is not implemented. -/
def fsOpen (s : Vfs D) (_path : Option CString) (_flags _mode : Int) : Int × Vfs D := (-eNotfound, s)

/-- `fs_close` clears the table unless the file's own operation fails. -/
def fsClose (code : Code D) (s : Vfs D) (fd : Int) : Int × Vfs D :=
  match openFile s fd with
  | none => (-eInval, s)
  | some file =>
      match (operations code s file).bind FileOperations.close with
      | none => (0, { s with openFiles := Function.update s.openFiles fd.toNat none })
      | some close =>
          let (ret, s) := close s file
          if ret < 0 then (ret, s) else (0, { s with openFiles := Function.update s.openFiles fd.toNat none })

/-- Reading and writing differ in the operation that they call. -/
def transfer (select : FileOperations D → Option (Vfs D → Addr → Addr → Nat → Int × Vfs D)) (code : Code D)
    (s : Vfs D) (fd : Int) (buf : Option Addr) (count : Nat) : Int × Vfs D :=
  match openFile s fd with
  | none => (-eInval, s)
  | some file =>
      match buf with
      | none => (-eInval, s)
      | some buf =>
          match (operations code s file).bind select with
          | some operation => operation s file buf count
          | none => (-eNotsup, s)

def fsRead (code : Code D) (s : Vfs D) (fd : Int) (buf : Option Addr) (count : Nat) : Int × Vfs D :=
  transfer FileOperations.read code s fd buf count

def fsWrite (code : Code D) (s : Vfs D) (fd : Int) (buf : Option Addr) (count : Nat) : Int × Vfs D :=
  transfer FileOperations.write code s fd buf count

/-- A 64-bit result is converted to the signed type `off_t`. -/
def offT (x : Int) : Int := Int.bmod x (2 ^ 64)

/-- The position that a seek asks for, or nothing when `whence` is bad or the inode is missing. -/
def newPosition (seek : Seek) (s : Vfs D) (file : Addr) (offset whence : Int) : Option Int :=
  if whence = seek.set then some offset
  else if whence = seek.cur then some (offT ((s.file file).fPos + offset))
  else if whence = seek.fromEnd then (s.file file).inode.map fun i => offT ((s.inode i).iSize + offset)
  else none

/-- `fs_lseek` moves the position unless it becomes negative. -/
def fsLseek (code : Code D) (seek : Seek) (s : Vfs D) (fd offset whence : Int) : Int × Vfs D :=
  match openFile s fd with
  | none => (-eInval, s)
  | some file =>
      match (operations code s file).bind FileOperations.lseek with
      | some lseek => lseek s file offset whence
      | none =>
          match newPosition seek s file offset whence with
          | none => (-eInval, s)
          | some newPos =>
              if newPos < 0 then (-eInval, s)
              else (newPos, { s with file := Function.update s.file file { s.file file with fPos := newPos.toNat } })

/-- `fs_mkdir` is not implemented. -/
def fsMkdir (s : Vfs D) (_path : Option CString) (_mode : Nat) : Int × Vfs D := (-eNotfound, s)

/-- `fs_unlink` is not implemented. -/
def fsUnlink (s : Vfs D) (_path : Option CString) : Int × Vfs D := (-eNotfound, s)

end Operations

/-- The calls of the file API and of the registry. -/
inductive Call
  | fsOpen (path : Option CString) (flags mode : Int)
  | fsClose (fd : Int)
  | fsRead (fd : Int) (buf : Option Addr) (count : Nat)
  | fsWrite (fd : Int) (buf : Option Addr) (count : Nat)
  | fsLseek (fd offset whence : Int)
  | fsMkdir (path : Option CString) (mode : Nat)
  | fsUnlink (path : Option CString)
  | registerFilesystem (fsType : Option Addr)
  | mountFs (request : MountRequest) (flags : BitVec 32)

section Calls

variable {D : Type}

/-- A call returns a value and a state, if it returns. -/
def exec (code : Code D) (seek : Seek) (fuel : Nat) (s : Vfs D) : Call → Option (Int × Vfs D)
  | .fsOpen path flags mode => some (fsOpen s path flags mode)
  | .fsClose fd => some (fsClose code s fd)
  | .fsRead fd buf count => some (fsRead code s fd buf count)
  | .fsWrite fd buf count => some (fsWrite code s fd buf count)
  | .fsLseek fd offset whence => some (fsLseek code seek s fd offset whence)
  | .fsMkdir path mode => some (fsMkdir s path mode)
  | .fsUnlink path => some (fsUnlink s path)
  | .registerFilesystem fsType => registerFilesystem fuel s fsType
  | .mountFs request flags => mountFs code fuel s request flags

/-- A transfer fails by itself on a bad descriptor, a null buffer, or a missing operation. -/
def TransferFails (select : FileOperations D → Option (Vfs D → Addr → Addr → Nat → Int × Vfs D)) (code : Code D)
    (s : Vfs D) (fd : Int) (buf : Option Addr) : Prop :=
  ∀ file ∈ openFile s fd, buf = none ∨ (operations code s file).bind select = none

/-- A seek fails by itself on a bad descriptor, or without an own operation when there is no position or a negative one. -/
def SeekFails (code : Code D) (seek : Seek) (s : Vfs D) (fd offset whence : Int) : Prop :=
  ∀ file ∈ openFile s fd, (operations code s file).bind FileOperations.lseek = none ∧
    ∀ newPos ∈ newPosition seek s file offset whence, newPos < 0

/-- A registration fails on a null argument, a null name, or a registered name. -/
def RegisterFails (s : Vfs D) (fsType : Option Addr) : Prop :=
  ∀ p ∈ fsType, ∀ name ∈ (s.fsType p).name, ∃ q, Finds s name s.registeredFsTypes q

/-- A mount fails when the type is not registered or its operation answers null. -/
def MountFails (code : Code D) (s : Vfs D) (request : MountRequest) : Prop :=
  ∀ p, Finds s request.fsTypeName s.registeredFsTypes p →
    ∀ operation ∈ (s.fsType p).mount, (code.mount operation s request).1 = none

/-- A call fails by itself, not by the answer of a file's own operation. -/
def FailsItself (code : Code D) (seek : Seek) (s : Vfs D) : Call → Prop
  | .fsOpen _ _ _ => True
  | .fsClose fd => openFile s fd = none
  | .fsRead fd buf _ => TransferFails FileOperations.read code s fd buf
  | .fsWrite fd buf _ => TransferFails FileOperations.write code s fd buf
  | .fsLseek fd offset whence => SeekFails code seek s fd offset whence
  | .fsMkdir _ _ => True
  | .fsUnlink _ => True
  | .registerFilesystem fsType => RegisterFails s fsType
  | .mountFs request _ => MountFails code s request

variable {code : Code D} {seek : Seek} {fuel : Nat} {s s' : Vfs D} {v : Int}

theorem eInval_positive : 0 < -eInval := by decide

theorem eNotsup_positive : 0 < -eNotsup := by decide

/-- A transfer that fails by itself returns a positive value. -/
theorem transfer_positive {select : FileOperations D → Option (Vfs D → Addr → Addr → Nat → Int × Vfs D)}
    {fd : Int} {buf : Option Addr} {count : Nat} (fails : TransferFails select code s fd buf) :
    0 < (transfer select code s fd buf count).1 := by
  unfold transfer
  split
  next => exact eInval_positive
  next file opened =>
      rcases fails file opened with rfl | missing
      · exact eInval_positive
      · split
        next => exact eInval_positive
        next =>
            rw [missing]
            exact eNotsup_positive

/-- A seek that fails by itself returns a positive value. -/
theorem fsLseek_positive {fd offset whence : Int} (fails : SeekFails code seek s fd offset whence) :
    0 < (fsLseek code seek s fd offset whence).1 := by
  unfold fsLseek
  split
  next => exact eInval_positive
  next file opened =>
      obtain ⟨own, negative⟩ := fails file opened
      rw [own]
      simp only
      split
      next => exact eInval_positive
      next newPos found =>
          rw [if_pos (negative newPos found)]
          exact eInval_positive

/-- A registration that fails returns a positive value. -/
theorem registerFilesystem_positive {fsType : Option Addr} (fails : RegisterFails s fsType)
    (returned : registerFilesystem fuel s fsType = some (v, s')) : 0 < v := by
  unfold registerFilesystem at returned
  split at returned
  next =>
      obtain ⟨rfl, _⟩ := Prod.mk.inj (Option.some.inj returned)
      decide
  next p =>
      split at returned
      next =>
          obtain ⟨rfl, _⟩ := Prod.mk.inj (Option.some.inj returned)
          decide
      next name named =>
          split at returned
          next => cases returned
          next =>
              obtain ⟨rfl, _⟩ := Prod.mk.inj (Option.some.inj returned)
              decide
          next ended =>
              -- The search saw the whole list, which has a type of this name.
              obtain ⟨q, finds⟩ := fails p rfl name named
              cases (findFrom_spec ended q).mpr finds

/-- A mount that fails returns a positive value. -/
theorem mountFs_positive {request : MountRequest} {flags : BitVec 32} (fails : MountFails code s request)
    (returned : mountFs code fuel s request flags = some (v, s')) : 0 < v := by
  unfold mountFs at returned
  split at returned
  next => cases returned
  next =>
      obtain ⟨rfl, _⟩ := Prod.mk.inj (Option.some.inj returned)
      decide
  next p ended =>
      split at returned
      next => cases returned
      next operation named =>
          have refused := fails p ((findFrom_spec ended p).mp rfl) operation named
          split at returned
          next =>
              obtain ⟨rfl, _⟩ := Prod.mk.inj (Option.some.inj returned)
              decide
          next answered =>
              rw [answered] at refused
              cases refused

/-- Every call that fails by itself returns a positive value. -/
theorem exec_positive {c : Call} (fails : FailsItself code seek s c)
    (returned : exec code seek fuel s c = some (v, s')) : 0 < v := by
  cases c with
  | fsOpen path flags mode =>
      obtain ⟨rfl, _⟩ := Prod.mk.inj (Option.some.inj returned)
      decide
  | fsClose fd =>
      have bad : openFile s fd = none := fails
      have answer : fsClose code s fd = (v, s') := Option.some.inj returned
      rw [fsClose, bad] at answer
      obtain ⟨rfl, _⟩ := Prod.mk.inj answer
      decide
  | fsRead fd buf count =>
      have answer : fsRead code s fd buf count = (v, s') := Option.some.inj returned
      have positive : 0 < (fsRead code s fd buf count).1 := transfer_positive fails
      rwa [answer] at positive
  | fsWrite fd buf count =>
      have answer : fsWrite code s fd buf count = (v, s') := Option.some.inj returned
      have positive : 0 < (fsWrite code s fd buf count).1 := transfer_positive fails
      rwa [answer] at positive
  | fsLseek fd offset whence =>
      have answer : fsLseek code seek s fd offset whence = (v, s') := Option.some.inj returned
      have positive := fsLseek_positive fails
      rwa [answer] at positive
  | fsMkdir path mode =>
      obtain ⟨rfl, _⟩ := Prod.mk.inj (Option.some.inj returned)
      decide
  | fsUnlink path =>
      obtain ⟨rfl, _⟩ := Prod.mk.inj (Option.some.inj returned)
      decide
  | registerFilesystem fsType => exact registerFilesystem_positive fails returned
  | mountFs request flags => exact mountFs_positive fails returned

end Calls

/-- A call reports its own failures by negative values only where it does not fail by itself, and else by positive ones. -/
theorem failure_negative_iff {D : Type} {code : Code D} {seek : Seek} {fuel : Nat} {s s' : Vfs D} {c : Call}
    {v : Int} (returned : exec code seek fuel s c = some (v, s')) :
    ((FailsItself code seek s c → v < 0) ↔ ¬ FailsItself code seek s c) ∧ (FailsItself code seek s c → 0 < v) := by
  have positive (fails : FailsItself code seek s c) : 0 < v := exec_positive fails returned
  refine ⟨⟨?_, ?_⟩, positive⟩
  · intro negative fails
    have sign := negative fails
    have other := positive fails
    omega
  · intro succeeds fails
    exact absurd fails succeeds

/-- The state of a sample has one open file, whose operations read what is asked. -/
def sampleVfs : Vfs Unit where
  inode := fun _ => ⟨0⟩
  file := fun _ => ⟨none, 0, some 0⟩
  fsType := fun _ => ⟨none, none, none⟩
  fs := fun _ => ⟨0, none⟩
  registeredFsTypes := none
  mountedFsList := none
  openFiles := fun fd => if fd = 3 then some 0 else none
  device := ()

/-- The sample's one file system reads what is asked and has no other operation. -/
def sampleCode : Code Unit where
  operations := fun _ => ⟨some fun s _ _ count => (count, s), none, none, none⟩
  mount := fun _ s _ => (none, s)

def sampleSeek : Seek := ⟨0, 1, 2, by decide, by decide, by decide⟩

/-- A read that succeeds meets the condition. -/
theorem failure_negative_iff_sample :
    exec sampleCode sampleSeek 0 sampleVfs (.fsRead 3 (some 0) 1) = some (1, sampleVfs) ∧
    ¬ FailsItself sampleCode sampleSeek sampleVfs (.fsRead 3 (some 0) 1) ∧
    (FailsItself sampleCode sampleSeek sampleVfs (.fsRead 3 (some 0) 1) → (1 : Int) < 0) := by
  have returned : exec sampleCode sampleSeek 0 sampleVfs (.fsRead 3 (some 0) 1) = some (1, sampleVfs) := rfl
  have succeeds : ¬ FailsItself sampleCode sampleSeek sampleVfs (.fsRead 3 (some 0) 1) := by
    intro fails
    rcases fails 0 rfl with missing | missing
    · cases missing
    · cases missing
  exact ⟨returned, succeeds, (failure_negative_iff returned).1.mpr succeeds⟩

/-- A read of a bad descriptor returns the value of a read of one byte. -/
theorem badDescriptor_reads_one :
    FailsItself sampleCode sampleSeek sampleVfs (.fsRead (-1) (some 0) 1) ∧
    ∃ v, exec sampleCode sampleSeek 0 sampleVfs (.fsRead (-1) (some 0) 1) = some (v, sampleVfs) ∧ ¬ v < 0 ∧
      exec sampleCode sampleSeek 0 sampleVfs (.fsRead 3 (some 0) 1) = some (v, sampleVfs) := by
  refine ⟨?_, 1, rfl, by decide, rfl⟩
  intro file opened
  cases opened

end OsKernel.Fs
