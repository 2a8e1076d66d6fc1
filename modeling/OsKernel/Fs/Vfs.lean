import OsKernel.Memory.Allocator

/-
This file models the virtual file system of `vfs.c`.
The operations of a file system are code outside the kernel and act on the whole state.
-/

namespace OsKernel.Fs

/-- The error codes of `types.h` are negative numbers. -/
def eInval : Int := -1

def eIo : Int := -3

def eNotfound : Int := -4

def eExist : Int := -5

def eNotsup : Int := -6

def fsMounted : BitVec 32 := 1

/-- A string lists its bytes up to the terminating zero. -/
abbrev CString := List UInt8

/-- `strcmp` of `string.c` returns the difference of the first bytes that differ. -/
def strcmp : CString → CString → Int
  | a :: s, b :: t => if a ≠ 0 ∧ a = b then strcmp s t else (a.toNat : Int) - b.toNat
  | a :: _, [] => a.toNat
  | [], b :: _ => -b.toNat
  | [], [] => 0

structure Inode where
  iSize : Nat

/-- An open file refers to its inode and to its operations by pointers. -/
structure File where
  inode : Option Addr
  fPos : Nat
  fOp : Option Addr

structure FileSystemType where
  name : Option CString
  mount : Option Addr
  next : Option Addr

structure FileSystem where
  flags : BitVec 32
  fsType : Option Addr

/-- The kernel's objects, the registered types, the open files, and the devices behind them. -/
structure Vfs (D : Type) where
  inode : Addr → Inode
  file : Addr → File
  fsType : Addr → FileSystemType
  fs : Addr → FileSystem
  registeredFsTypes : Option Addr
  mountedFsList : Option Addr
  openFiles : Nat → Option Addr
  device : D

/-- The function pointers of `file_operations_t`, any of which may be null. -/
structure FileOperations (D : Type) where
  read : Option (Vfs D → Addr → Addr → Nat → Int × Vfs D)
  write : Option (Vfs D → Addr → Addr → Nat → Int × Vfs D)
  close : Option (Vfs D → Addr → Int × Vfs D)
  lseek : Option (Vfs D → Addr → Int → Int → Int × Vfs D)

/-- The arguments of a mount operation. -/
structure MountRequest where
  fsTypeName : CString
  dev : CString
  mountPoint : CString
  data : Option Addr

/-- The code that pointers to operations lead to. -/
structure Code (D : Type) where
  operations : Addr → FileOperations D
  mount : Addr → Vfs D → MountRequest → Option Addr × Vfs D

section Registry

variable {D : Type}

/-- The loop over the registered types returns the first of that name, or null at the end of the list.
It has no result when the fuel runs out or a registered name is null. -/
def findFrom (s : Vfs D) (name : CString) : Nat → Option Addr → Option (Option Addr)
  | _, none => some none
  | 0, some _ => none
  | fuel + 1, some p =>
      match (s.fsType p).name with
      | none => none
      | some registered =>
          if strcmp registered name = 0 then some (some p) else findFrom s name fuel (s.fsType p).next

/-- `register_filesystem` adds a type with a new name at the front. -/
def registerFilesystem (fuel : Nat) (s : Vfs D) (fsType : Option Addr) : Option (Int × Vfs D) :=
  match fsType with
  | none => some (-eInval, s)
  | some p =>
      match (s.fsType p).name with
      | none => some (-eInval, s)
      | some name =>
          match findFrom s name fuel s.registeredFsTypes with
          | none => none
          | some (some _) => some (-eExist, s)
          | some none =>
              some (0, { s with fsType := Function.update s.fsType p { s.fsType p with next := s.registeredFsTypes },
                                registeredFsTypes := some p })

/-- `find_filesystem` searches the registered types. -/
def findFilesystem (fuel : Nat) (s : Vfs D) (name : CString) : Option (Option Addr) :=
  findFrom s name fuel s.registeredFsTypes

/-- `mount_fs` calls the mount operation of the type and marks the new file system. -/
def mountFs (code : Code D) (fuel : Nat) (s : Vfs D) (request : MountRequest) (flags : BitVec 32) :
    Option (Int × Vfs D) :=
  match findFilesystem fuel s request.fsTypeName with
  | none => none
  | some none => some (-eNotfound, s)
  | some (some p) =>
      match (s.fsType p).mount with
      | none => none
      | some operation =>
          match code.mount operation s request with
          | (none, s) => some (-eIo, s)
          | (some fs, s) =>
              some (0, { s with fs := Function.update s.fs fs ⟨fsMounted ||| flags, some p⟩ })

/-- `vfs_init` forgets the registered types and the open files. -/
def vfsInit (s : Vfs D) : Vfs D :=
  { s with registeredFsTypes := none, mountedFsList := none, openFiles := fun _ => none }

/-- A type is the first of that name on the list behind a pointer. -/
inductive Finds (s : Vfs D) (name : CString) : Option Addr → Addr → Prop
  | here {p : Addr} {registered : CString} (named : (s.fsType p).name = some registered)
      (same : strcmp registered name = 0) : Finds s name (some p) p
  | later {p q : Addr} {registered : CString} (named : (s.fsType q).name = some registered)
      (other : strcmp registered name ≠ 0) (rest : Finds s name (s.fsType q).next p) : Finds s name (some q) p

section Search

variable {s : Vfs D} {name registered : CString} {fuel : Nat} {start found : Option Addr} {p q : Addr}

theorem findFrom_none : findFrom s name fuel none = some none := by
  cases fuel <;> rfl

/-- Nothing is found behind a null pointer. -/
theorem not_finds_none : ¬ Finds s name none p := by
  intro finds
  cases finds

/-- The first type is the one that is found, or the search goes on behind it. -/
theorem finds_some (named : (s.fsType q).name = some registered) :
    Finds s name (some q) p ↔ if strcmp registered name = 0 then q = p else Finds s name (s.fsType q).next p := by
  constructor
  · intro finds
    cases finds with
    | here named' same =>
        obtain rfl : registered = _ := Option.some.inj (named.symm.trans named')
        rw [if_pos same]
    | later named' other rest =>
        obtain rfl : registered = _ := Option.some.inj (named.symm.trans named')
        rwa [if_neg other]
  · intro either
    split at either
    next same =>
        subst either
        exact .here named same
    next other => exact .later named other either

/-- A search that ends has found the first type of the name, or there is none. -/
theorem findFrom_spec (ended : findFrom s name fuel start = some found) (p : Addr) :
    found = some p ↔ Finds s name start p := by
  induction fuel generalizing start with
  | zero =>
      cases start with
      | none =>
          obtain rfl := Option.some.inj (findFrom_none.symm.trans ended)
          simp [not_finds_none]
      | some q => cases ended
  | succ fuel ih =>
      cases start with
      | none =>
          obtain rfl := Option.some.inj (findFrom_none.symm.trans ended)
          simp [not_finds_none]
      | some q =>
          rw [findFrom] at ended
          split at ended
          next => cases ended
          next registered named =>
              rw [finds_some named]
              split at ended
              next same =>
                  obtain rfl := Option.some.inj ended
                  rw [if_pos same, Option.some.injEq]
              next other =>
                  rw [if_neg other]
                  exact ih ended

end Search

end Registry

end OsKernel.Fs
