import OsKernel.Fs.Vfs
import OsKernel.Library.Bytes
import OsKernel.Library.Chain
import OsKernel.Library.KeyedList
import OsKernel.Library.Runs

/-
This file shows that the registered file system types are a map from names.
The links of the list are fields of the caller's objects, and the search for the name keeps them in one chain.
-/

namespace OsKernel.Fs
open Library

section Strings

variable {m : Bytes} {s₁ s₂ fuel : Nat} {a b : CString}

/-- The loop of `strcmp` over two pointers into memory. -/
def strcmpLoop (m : Bytes) : Nat → Nat → Nat → Option Int
  | 0, _, _ => none
  | fuel + 1, s₁, s₂ =>
      if m s₁ ≠ 0 ∧ m s₁ = m s₂ then strcmpLoop m fuel (s₁ + 1) (s₂ + 1)
      else some ((m s₁).toNat - (m s₂).toNat)

/-- The bytes of a string and its terminating zero are at an address. -/
def StringAt (m : Bytes) (s : Nat) (a : CString) : Prop := ∀ k, k ≤ a.length → m (s + k) = a.getD k 0

theorem StringAt.head (at' : StringAt m s₁ a) : m s₁ = a.getD 0 0 := at' 0 (Nat.zero_le _)

theorem StringAt.tail {c : UInt8} (at' : StringAt m s₁ (c :: a)) : StringAt m (s₁ + 1) a := by
  intro k inside
  have shifted := at' (k + 1) (by simpa using inside)
  rwa [List.getD_cons_succ, Nat.add_comm k 1, ← Nat.add_assoc] at shifted

/-- The loop ends, and its result is that of the comparison of the two strings. -/
theorem strcmpLoop_eq (first : StringAt m s₁ a) (second : StringAt m s₂ b) (enough : a.length < fuel) :
    strcmpLoop m fuel s₁ s₂ = some (strcmp a b) := by
  induction a generalizing b s₁ s₂ fuel with
  | nil =>
      obtain ⟨fuel, rfl⟩ : ∃ n, fuel = n + 1 := ⟨fuel - 1, by omega⟩
      have null : m s₁ = 0 := first.head
      rw [strcmpLoop, if_neg fun both => both.1 null, null, second.head]
      cases b with
      | nil => rfl
      | cons d b => simp [strcmp]
  | cons c a ih =>
      obtain ⟨fuel, rfl⟩ : ∃ n, fuel = n + 1 := ⟨fuel - 1, by omega⟩
      have head : m s₁ = c := first.head
      rw [strcmpLoop, head, second.head]
      cases b with
      | nil =>
          have apart : ¬ (c ≠ 0 ∧ c = ([] : CString).getD 0 0) := fun both => both.1 both.2
          rw [if_neg apart]
          simp [strcmp]
      | cons d b =>
          rw [List.getD_cons_zero, strcmp]
          split
          next => exact ih first.tail second.tail (by simpa using enough)
          next => rfl

/-- The comparison of two strings answers zero exactly for equal strings. -/
theorem strcmp_eq_zero_iff (visible : 0 ∉ a) (visible' : 0 ∉ b) : strcmp a b = 0 ↔ a = b := by
  induction a generalizing b with
  | nil =>
      cases b with
      | nil => simp [strcmp]
      | cons d b =>
          have shown : d ≠ 0 := fun null => visible' (by simp [null])
          have positive : d.toNat ≠ 0 := fun null => shown (UInt8.toNat_inj.mp null)
          simp [strcmp, positive]
  | cons c a ih =>
      rw [List.mem_cons, not_or] at visible
      have shown : c ≠ 0 := fun null => visible.1 null.symm
      cases b with
      | nil =>
          have positive : c.toNat ≠ 0 := fun null => shown (UInt8.toNat_inj.mp null)
          simp [strcmp, positive]
      | cons d b =>
          rw [List.mem_cons, not_or] at visible'
          rw [strcmp, List.cons.injEq]
          by_cases same : c = d
          · rw [if_pos ⟨shown, same⟩, ih visible.2 visible'.2]
            exact (and_iff_right same).symm
          · have apart : c.toNat ≠ d.toNat := fun equal => same (UInt8.toNat_inj.mp equal)
            rw [if_neg fun both => same both.2]
            constructor
            · intro zero
              omega
            · intro both
              exact absurd both.1 same

end Strings

section Registry

variable {D : Type}

/-- The name and the link of each object. -/
def nameOf (s : Vfs D) (p : Addr) : Option CString := (s.fsType p).name

def nextOf (s : Vfs D) (p : Addr) : Option Addr := (s.fsType p).next

/-- No name holds a zero before its end. -/
def Terminated (s : Vfs D) : Prop := ∀ p, ∀ name ∈ nameOf s p, 0 ∉ name

/-- The list is finite and ends in null, and its types have names that differ. -/
structure Registered (s : Vfs D) (types : List Addr) : Prop where
  chain : Chain (nextOf s) s.registeredFsTypes types
  named : ∀ p ∈ types, nameOf s p ≠ none
  distinct : DistinctKeys (nameOf s) types

/-- One object becomes the front of the list. -/
def Vfs.addType (s : Vfs D) (p : Addr) : Vfs D :=
  { s with fsType := Function.update s.fsType p { s.fsType p with next := s.registeredFsTypes },
           registeredFsTypes := some p }

/-- The object and its name are not null, and no registered type has that name. -/
def IsNew (s : Vfs D) (types : List Addr) (fsType : Option Addr) : Prop :=
  ∃ p ∈ fsType, nameOf s p ≠ none ∧ ∀ q ∈ types, nameOf s q ≠ nameOf s p

/-- A call returns zero exactly for a new type, and adds it, and else it changes nothing. -/
def RegistersNew (s : Vfs D) (types : List Addr) : Prop :=
  ∀ fsType, ∃ v s', (∀ fuel, types.length ≤ fuel → registerFilesystem fuel s fsType = some (v, s')) ∧
    (v = 0 ↔ IsNew s types fsType) ∧
    (v = 0 → ∃ p ∈ fsType, s' = s.addType p ∧ Registered s' (p :: types)) ∧ (v ≠ 0 → s' = s)

/-- A search returns the one registered type of a name, or null when there is none. -/
def FindsByName (s : Vfs D) (types : List Addr) : Prop :=
  ∀ name, 0 ∉ name → ∃ found, (∀ fuel, types.length ≤ fuel → findFilesystem fuel s name = some found) ∧
    ∀ p, found = some p ↔ p ∈ types ∧ nameOf s p = some name

/-- Two states find the same types by all names. -/
def FindsSame (s s' : Vfs D) (types : List Addr) : Prop :=
  ∀ name, 0 ∉ name → ∀ fuel, types.length ≤ fuel → findFilesystem fuel s' name = findFilesystem fuel s name

/-- A call of `register_filesystem` that returns. -/
def Offered (s : Vfs D) (fsType : Option Addr) (s' : Vfs D) : Prop :=
  ∃ fuel v, registerFilesystem fuel s fsType = some (v, s')

variable {s s' s₀ : Vfs D} {types types' : List Addr} {name : CString} {start fsType : Option Addr} {fuel : Nat}
  {p : Addr}

/-- The search along a chain is a lookup in its list. -/
theorem findFrom_eq (terminated : Terminated s) (visible : 0 ∉ name) (chain : Chain (nextOf s) start types)
    (named : ∀ p ∈ types, nameOf s p ≠ none) (enough : types.length ≤ fuel) :
    findFrom s name fuel start = some (lookup (nameOf s) types (some name)) := by
  induction types generalizing start fuel with
  | nil =>
      have null : start = none := chain
      rw [null, findFrom_none, lookup_nil]
  | cons p rest ih =>
      obtain ⟨rfl, later⟩ := chain
      obtain ⟨fuel, rfl⟩ : ∃ n, fuel = n + 1 := ⟨fuel - 1, by rw [List.length_cons] at enough; omega⟩
      obtain ⟨registered, held⟩ := Option.ne_none_iff_exists'.mp (named p List.mem_cons_self)
      have field : (s.fsType p).name = some registered := held
      have equal := strcmp_eq_zero_iff (terminated p registered held) visible
      simp only [findFrom, field, lookup_cons, held, Option.some.injEq, equal]
      split
      next => rfl
      next =>
          exact ih later (fun q member => named q (List.mem_cons_of_mem p member)) (by simpa using enough)

theorem Registered.find (registered : Registered s types) (terminated : Terminated s) (visible : 0 ∉ name)
    (enough : types.length ≤ fuel) :
    findFrom s name fuel s.registeredFsTypes = some (lookup (nameOf s) types (some name)) :=
  findFrom_eq terminated visible registered.chain registered.named enough

theorem Registered.findsByName (registered : Registered s types) (terminated : Terminated s) :
    FindsByName s types := by
  intro name visible
  refine ⟨lookup (nameOf s) types (some name), fun _ enough => registered.find terminated visible enough, ?_⟩
  intro p
  exact registered.distinct.lookup_eq_some_iff

/-- The names stay when a type is added. -/
theorem nameOf_addType : nameOf (s.addType p) = nameOf s := by
  funext q
  simp only [nameOf, Vfs.addType, Function.update_apply]
  split
  next here => rw [here]
  next => rfl

/-- Only the link of the added type changes. -/
theorem nextOf_addType : nextOf (s.addType p) = Function.update (nextOf s) p s.registeredFsTypes := by
  funext q
  simp only [nextOf, Vfs.addType, Function.update_apply]
  split
  next => rfl
  next => rfl

/-- A new type in front keeps the list a chain of different names. -/
theorem Registered.addType (registered : Registered s types) (named : nameOf s p ≠ none)
    (fresh : ∀ q ∈ types, nameOf s q ≠ nameOf s p) : Registered (s.addType p) (p :: types) := by
  have absent : p ∉ types := fun member => fresh p member rfl
  refine ⟨⟨rfl, ?_⟩, ?_, ?_⟩
  · rw [nextOf_addType, Function.update_self]
    apply registered.chain.congr
    intro q member
    apply Function.update_of_ne
    rintro rfl
    exact absent member
  · rw [nameOf_addType]
    intro q member
    rcases List.mem_cons.mp member with rfl | later
    · exact named
    · exact registered.named q later
  · rw [nameOf_addType]
    exact registered.distinct.cons fresh

/-- The search for the name of an object decides the call. -/
theorem registerFilesystem_named (held : nameOf s p = some name) : registerFilesystem fuel s (some p) =
    (findFrom s name fuel s.registeredFsTypes).map fun found =>
      if found.isSome then (-eExist, s) else (0, s.addType p) := by
  rw [registerFilesystem]
  simp only
  split
  next missing => cases missing.symm.trans held
  next other field =>
      obtain rfl : other = name := Option.some.inj (field.symm.trans held)
      cases findFrom s other fuel s.registeredFsTypes with
      | none => rfl
      | some found => cases found <;> rfl

/-- An object without a name is refused. -/
theorem registerFilesystem_nameless (missing : nameOf s p = none) :
    registerFilesystem fuel s (some p) = some (-eInval, s) := by
  have field : (s.fsType p).name = none := missing
  simp only [registerFilesystem, field]

/-- Each call finds out whether the type is new. -/
theorem Registered.registersNew (registered : Registered s types) (terminated : Terminated s) :
    RegistersNew s types := by
  intro fsType
  cases fsType with
  | none =>
      refine ⟨-eInval, s, fun _ _ => rfl, ?_, fun zero => absurd zero (by decide), fun _ => rfl⟩
      exact iff_of_false (by decide) fun ⟨_, missing, _⟩ => by cases missing
  | some p =>
      cases held : nameOf s p with
      | none =>
          refine ⟨-eInval, s, fun _ _ => registerFilesystem_nameless held, ?_, fun zero => absurd zero (by decide),
            fun _ => rfl⟩
          apply iff_of_false (by decide)
          rintro ⟨q, same, named, _⟩
          obtain rfl := Option.some.inj same
          exact named held
      | some name =>
          have call (fuel : Nat) (enough : types.length ≤ fuel) : registerFilesystem fuel s (some p) =
              some (if (lookup (nameOf s) types (some name)).isSome then (-eExist, s) else (0, s.addType p)) := by
            rw [registerFilesystem_named held, registered.find terminated (terminated p name held) enough]
            rfl
          cases found : lookup (nameOf s) types (some name) with
          | some q =>
              obtain ⟨member, same⟩ := registered.distinct.lookup_eq_some_iff.mp found
              rw [found] at call
              refine ⟨-eExist, s, call, ?_, fun zero => absurd zero (by decide), fun _ => rfl⟩
              apply iff_of_false (by decide)
              rintro ⟨x, same', _, fresh⟩
              obtain rfl := Option.some.inj same'
              exact fresh q member (same.trans held.symm)
          | none =>
              have fresh : ∀ q ∈ types, nameOf s q ≠ nameOf s p := by
                rw [held]
                exact lookup_eq_none_iff.mp found
              have named : nameOf s p ≠ none := by
                rw [held]
                exact Option.some_ne_none name
              rw [found] at call
              refine ⟨0, s.addType p, call, iff_of_true rfl ⟨p, rfl, named, fresh⟩, ?_, fun other => absurd rfl other⟩
              intro _
              exact ⟨p, rfl, rfl, registered.addType named fresh⟩

/-- Searches that end with any fuel find the same. -/
theorem findFrom_unique {fuel' : Nat} {found found' : Option Addr} (first : findFrom s name fuel start = some found)
    (second : findFrom s name fuel' start = some found') : found = found' := by
  apply Option.ext
  intro p
  exact (findFrom_spec first p).trans (findFrom_spec second p).symm

theorem registerFilesystem_unique {fuel' : Nat} {r r' : Int × Vfs D}
    (first : registerFilesystem fuel s fsType = some r) (second : registerFilesystem fuel' s fsType = some r') :
    r = r' := by
  cases fsType with
  | none => exact Option.some.inj (first.symm.trans second)
  | some p =>
      cases held : nameOf s p with
      | none =>
          rw [registerFilesystem_nameless held] at first second
          exact Option.some.inj (first.symm.trans second)
      | some name =>
          rw [registerFilesystem_named held, Option.map_eq_some_iff] at first second
          obtain ⟨found, ended, rfl⟩ := first
          obtain ⟨found', ended', rfl⟩ := second
          rw [findFrom_unique ended ended']

/-- A step adds one type in front or changes nothing. -/
theorem Registered.offered (registered : Registered s types) (terminated : Terminated s)
    (offered : Offered s fsType s') :
    (s' = s ∧ Registered s' types) ∨ ∃ p, s' = s.addType p ∧ Registered s' (p :: types) := by
  obtain ⟨fuel, v, returned⟩ := offered
  obtain ⟨w, t, call, _, adds, keeps⟩ := registered.registersNew terminated fsType
  obtain ⟨rfl, rfl⟩ := Prod.mk.inj (registerFilesystem_unique returned (call types.length (Nat.le_refl _)))
  by_cases zero : v = 0
  · obtain ⟨p, _, same, longer⟩ := adds zero
    exact .inr ⟨p, same, longer⟩
  · obtain rfl := keeps zero
    exact .inl ⟨rfl, registered⟩

/-- The empty list is registered after `vfs_init`. -/
theorem registered_vfsInit (s : Vfs D) : Registered (vfsInit s) [] :=
  ⟨rfl, fun _ member => absurd member List.not_mem_nil, List.nodup_nil⟩

/-- Every run has a list of registered types, and keeps all names. -/
theorem run_registered {offers : List (Option Addr)} (terminated : Terminated s₀)
    (run : Run Offered (vfsInit s₀) offers s) : nameOf s = nameOf s₀ ∧ ∃ types, Registered s types := by
  have initial : nameOf (vfsInit s₀) = nameOf s₀ ∧ ∃ types, Registered (vfsInit s₀) types :=
    ⟨rfl, [], registered_vfsInit s₀⟩
  apply run.invariant (fun _ s => nameOf s = nameOf s₀ ∧ ∃ types, Registered s types) initial
  rintro _ t _ t' _ ⟨names, types, registered⟩ offered
  have kept : Terminated t := by
    rw [Terminated, names]
    exact terminated
  rcases registered.offered kept offered with ⟨rfl, still⟩ | ⟨p, rfl, longer⟩
  · exact ⟨names, types, still⟩
  · exact ⟨nameOf_addType.trans names, p :: types, longer⟩

/-- Two lists of the same types have the same length and find the same. -/
theorem Registered.findsSame (registered : Registered s types) (registered' : Registered s' types')
    (terminated : Terminated s) (names : nameOf s' = nameOf s) (same : ∀ p, p ∈ types' ↔ p ∈ types) :
    FindsSame s s' types := by
  intro name visible fuel enough
  have distinct' := registered'.distinct
  have length : types'.length = types.length := by
    have permuted : types'.Perm types :=
      (List.perm_ext_iff_of_nodup distinct'.nodup registered.distinct.nodup).mpr same
    exact permuted.length_eq
  have kept : Terminated s' := by
    rw [Terminated, names]
    exact terminated
  rw [findFilesystem, findFilesystem, registered.find terminated visible enough,
    registered'.find kept visible (length ▸ enough)]
  rw [names] at distinct' ⊢
  rw [registered.distinct.lookup_congr distinct' same]

end Registry

/-- After `vfs_init` and any registrations the registered types are a map from names, whatever their order. -/
theorem registry_run_map {D : Type} {s₀ s : Vfs D} {offers : List (Option Addr)} (terminated : Terminated s₀)
    (run : Run Offered (vfsInit s₀) offers s) :
    ∃ types, Registered s types ∧ types.Nodup ∧ RegistersNew s types ∧ FindsByName s types ∧
      ∀ offers' s' types', Run Offered (vfsInit s₀) offers' s' → Registered s' types' →
        (∀ p, p ∈ types' ↔ p ∈ types) → FindsSame s s' types := by
  obtain ⟨names, types, registered⟩ := run_registered terminated run
  have kept : Terminated s := by
    rw [Terminated, names]
    exact terminated
  refine ⟨types, registered, registered.distinct.nodup, registered.registersNew kept, registered.findsByName kept, ?_⟩
  intro offers' s' types' run' registered' same
  obtain ⟨names', _⟩ := run_registered terminated run'
  exact registered.findsSame registered' kept (names'.trans names.symm) same

/-- The sample's objects have the names `a` and `a` with a byte above 127, and the third repeats the first. -/
def sampleTypes : Vfs Unit where
  inode := fun _ => ⟨0⟩
  file := fun _ => ⟨none, 0, none⟩
  fsType := fun p => ⟨if p = 2 then some [0x61, 0xE9] else some [0x61], none, none⟩
  fs := fun _ => ⟨0, none⟩
  registeredFsTypes := none
  mountedFsList := none
  openFiles := fun _ => none
  device := ()

/-- The sample offers two types, and then both names again. -/
theorem registry_run_map_sample : ∃ s,
    Run Offered (vfsInit sampleTypes) [some 1, some 2, some 3, some 1] s ∧ s.registeredFsTypes = some 2 ∧
      ∃ types, Registered s types ∧ FindsByName s types := by
  have answer : (replay (fun s offer => (registerFilesystem 8 s offer).map Prod.snd) (vfsInit sampleTypes)
      [some 1, some 2, some 3, some 1]).map Vfs.registeredFsTypes = some (some 2) := by decide
  obtain ⟨s, replayed, front⟩ := Option.map_eq_some_iff.mp answer
  have run : Run Offered (vfsInit sampleTypes) [some 1, some 2, some 3, some 1] s := by
    apply run_of_replay ?_ replayed
    intro _ _ _ returned
    obtain ⟨⟨v, _⟩, same, rfl⟩ := Option.map_eq_some_iff.mp returned
    exact ⟨8, v, same⟩
  have terminated : Terminated sampleTypes := by
    intro p name held
    have either : name = [0x61, 0xE9] ∨ name = [0x61] := by
      have field : (if p = 2 then some [0x61, 0xE9] else some [0x61]) = some name := held
      split at field
      next => exact .inl (Option.some.inj field).symm
      next => exact .inr (Option.some.inj field).symm
    rcases either with rfl | rfl <;> decide
  obtain ⟨types, registered, _, _, finds, _⟩ := registry_run_map terminated run
  exact ⟨s, run, front, types, registered, finds⟩

end OsKernel.Fs
