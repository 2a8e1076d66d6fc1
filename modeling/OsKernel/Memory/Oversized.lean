import OsKernel.Memory.Bump
import OsKernel.Memory.HeapFit

/-
This file proves when the three allocators hold as many bytes as a request asks for.
-/

namespace OsKernel.Mm
open Library

/-- A tenant remembers how many bytes it asked for behind each pointer. -/
structure Tenant extends Client where
  asked : Nat → Nat

/-- The rounding of the request does not wrap, or no block with an address for its payload is free. -/
def Plain (h : Heap) (n : Nat) : Prop :=
  n ≤ 2 ^ 64 - 16 ∨ ∀ nodes, Lists h nodes → ∀ a ∈ nodes, h.get .isFree a ≠ 0 → a + 32 = 2 ^ 64

/-- The tenant after an answered request. -/
def Tenant.grant (t : Tenant) (n p : Nat) (h : Heap) : Tenant where
  heap := h
  live := if p = 0 then t.live else insert p t.live
  asked := Function.update t.asked p n

@[simp] theorem grant_asked_self {t : Tenant} {n p : Nat} {h : Heap} : (t.grant n p h).asked p = n := by
  simp [Tenant.grant]

/-- Every request of a tenant is plain, and all other steps are those of a client. -/
inductive TenantStep : Tenant → Op → Tenant → Prop
  | kmalloc {t : Tenant} {n fuel p : Nat} {h : Heap} (served : Mm.kmalloc fuel t.heap n = some (p, h))
      (plain : Plain t.heap n) : TenantStep t (.kmalloc n) (t.grant n p h)
  | kfree {t : Tenant} {p : Nat} (allowed : p = 0 ∨ p ∈ t.live) :
      TenantStep t (.kfree p) ⟨⟨Mm.kfree t.heap p, t.live.erase p⟩, t.asked⟩
  | write {t : Tenant} {mem : Bytes} (permitted : Permitted t.toClient mem) :
      TenantStep t (.write mem) ⟨⟨{ t.heap with mem := mem }, t.live⟩, t.asked⟩

/-- The requested bytes lie inside the heap and apart from each other and from all headers. -/
structure Held (t : Tenant) : Prop where
  inside : ∀ p ∈ t.live, t.heap.heapStart ≤ p ∧ p + t.asked p ≤ t.heap.heapStart + t.heap.heapSize
  disjoint : ∀ p ∈ t.live, ∀ q ∈ t.live, p ≠ q → p + t.asked p ≤ q ∨ q + t.asked q ≤ p
  headers : ∃ nodes, Lists t.heap nodes ∧ ∀ p ∈ t.live, ∀ a ∈ nodes, p + t.asked p ≤ a ∨ a + 32 ≤ p

/-- A request that is answered by a pointer is held from then on. -/
def Honours (t : Tenant) (n : Nat) : Prop :=
  ∀ fuel p h, kmalloc fuel t.heap n = some (p, h) → p ≠ 0 → Held (t.grant n p h)

section Requests

variable {t t' : Tenant} {blocks : List Block} {n p fuel : Nat} {h : Heap} {op : Op}

/-- A step of a tenant is a step of its client. -/
theorem TenantStep.client (step : TenantStep t op t') : Step t.toClient op t'.toClient := by
  cases step with
  | kmalloc served plain => exact .kmalloc served
  | kfree allowed => exact .kfree allowed
  | write permitted => exact .write permitted

/-- Every block is at least as large as the request that it serves. -/
def Covered (t : Tenant) : Prop := ∀ p ∈ t.live, t.asked p ≤ blockSize t.heap p

/-- Requests that their blocks cover are held. -/
theorem Good.held (good : Good t.toClient blocks) (covered : Covered t) : Held t := by
  have apart := good.payloadsApart
  refine ⟨?_, ?_, _, good.holds.lists, ?_⟩
  · intro p member
    have bound := covered p member
    have inside := apart.inside p member
    omega
  · intro p first q second different
    have left := covered p first
    have right := covered q second
    have disjoint := apart.disjoint p first q second different
    omega
  · intro p member a listed
    have bound := covered p member
    have header := apart.headers p member a listed
    omega

/-- A plain request that is answered by a pointer gets a block of its size. -/
theorem Good.blockSize_ge (good : Good t.toClient blocks) (plain : Plain t.heap n)
    (served : Mm.kmalloc fuel t.heap n = some (p, h)) (issued : p ≠ 0) : n ≤ blockSize h p := by
  rcases kmalloc_refines good.holds served with ⟨_, null, _⟩ | ⟨a, blocks', allocated, named, holds⟩
  · exact absurd null issued
  · obtain ⟨left, b, right, rfl, _, fits, rfl, rfl⟩ := allocate_eq_some allocated
    have within : 0 < b.addr ∧ b.addr + 32 + b.size ≤ 2 ^ 64 ∧ b.size < 2 ^ 32 := good.holds.within (by simp)
    have bound : b.addr + 32 < 2 ^ 64 := by
      rw [named, add64] at issued
      omega
    have small : n ≤ 2 ^ 64 - 16 := by
      rcases plain with small | none
      · exact small
      · have flag : t.heap.get .isFree b.addr ≠ 0 := by
          rw [(good.holds.headers b (by simp)).flag, fits.1]
          decide
        have last := none _ good.holds.lists b.addr (by simp) flag
        omega
    have header : sub64 p 32 = b.addr := by
      rw [named, sub64, add64]
      omega
    have size : h.get .size b.addr = (taken 32 16 (alignUp n) b).size := by
      have described : Describes h (taken 32 16 (alignUp n) b) := holds.headers _ (by simp [Library.carve])
      rw [← described.size, taken_addr]
    have large := fits.2
    rw [blockSize, header, size, taken]
    rw [alignUp_eq_rounded small, rounded] at large ⊢
    split
    · change n ≤ (n + 15) / 16 * 16
      omega
    · change n ≤ b.size
      omega

/-- A plain request keeps every request covered. -/
theorem Good.covered_grant (good : Good t.toClient blocks) (covered : Covered t) (plain : Plain t.heap n)
    (served : Mm.kmalloc fuel t.heap n = some (p, h)) : Covered (t.grant n p h) := by
  have step : Run Step t.toClient [.kmalloc n] (t.grant n p h).toClient := .snoc .nil (.kmalloc served)
  have kept : ∀ q ∈ t.live, blockSize h q = blockSize t.heap q := by
    intro q member
    exact (good.stable step member (by simp)).2
  have null : 0 ∉ t.live := good.zero_notMem
  intro q member
  change Function.update t.asked p n q ≤ blockSize h q
  change q ∈ (if p = 0 then t.live else insert p t.live) at member
  by_cases same : q = p
  · subst same
    have issued : q ≠ 0 := by
      rintro rfl
      rw [if_pos rfl] at member
      exact null member
    rw [Function.update_self]
    exact good.blockSize_ge plain served issued
  · have old : q ∈ t.live := by
      split at member
      · exact member
      · exact Finset.mem_of_mem_insert_of_ne member same
    rw [Function.update_of_ne same, kept q old]
    exact covered q old

/-- Every step of a tenant keeps its requests covered. -/
theorem Good.covered_step (good : Good t.toClient blocks) (covered : Covered t) (step : TenantStep t op t') :
    Covered t' := by
  have single : Run Step t.toClient [op] t'.toClient := .snoc .nil step.client
  cases step with
  | kmalloc served plain => exact good.covered_grant covered plain served
  | kfree allowed =>
      intro q member
      obtain ⟨other, old⟩ := Finset.mem_erase.mp member
      have size := (good.stable single old (by simpa using other)).2
      exact (covered q old).trans (le_of_eq size.symm)
  | write permitted =>
      intro q member
      have size := (good.stable single member (by simp)).2
      exact (covered q member).trans (le_of_eq size.symm)

/-- A request that wraps gets the first free block, whatever its size. -/
theorem Good.oversized_issued (good : Good t.toClient blocks) (representable : n < 2 ^ 64)
    (wraps : ¬ Plain t.heap n) (served : Mm.kmalloc fuel t.heap n = some (p, h)) : p ≠ 0 := by
  rw [Plain, not_or] at wraps
  obtain ⟨large, free⟩ := wraps
  push Not at free
  obtain ⟨nodes, listed, a, member, flag, inner⟩ := free
  obtain rfl := Option.some.inj (good.holds.lists.symm.trans listed)
  obtain ⟨d, known, rfl⟩ := List.mem_map.mp member
  have zero : alignUp n = 0 := by
    rw [alignUp, add64]
    omega
  have suits : Fits (alignUp n) d := by
    rw [(good.holds.headers d known).flag] at flag
    rw [zero]
    exact ⟨by simpa using flag, Nat.zero_le _⟩
  have within : 0 < d.addr ∧ d.addr + 32 + d.size ≤ 2 ^ 64 ∧ d.size < 2 ^ 32 := good.holds.within known
  rcases kmalloc_refines good.holds served with ⟨refused, _, _⟩ | ⟨a, blocks', allocated, named, _⟩
  · exact absurd suits (allocate_eq_none.mp refused d known)
  · obtain ⟨left, b, right, rfl, skipped, fits, rfl, _⟩ := allocate_eq_some allocated
    -- The block that fits stands at or before the one known to be free.
    have order : b.addr ≤ d.addr := by
      obtain ⟨_, later, _⟩ := List.pairwise_append.mp good.holds.tiles.ordered
      simp only [List.mem_append, List.mem_cons] at known
      rcases known with before | rfl | behind
      · exact absurd suits (skipped d before)
      · exact le_refl _
      · have after := List.rel_of_pairwise_cons later behind
        omega
    rw [named, add64]
    omega

/-- A request is honoured exactly when it is plain. -/
theorem Good.honours_iff (good : Good t.toClient blocks) (covered : Covered t) (representable : n < 2 ^ 64) :
    Honours t n ↔ Plain t.heap n := by
  constructor
  · intro honours
    by_contra wraps
    obtain ⟨p, h, served⟩ := kmalloc_returns good.holds (Nat.lt_succ_self _) n
    have issued := good.oversized_issued representable wraps served
    have member : p ∈ (t.grant n p h).live := by
      change p ∈ if p = 0 then t.live else insert p t.live
      rw [if_neg issued]
      exact Finset.mem_insert_self p t.live
    have inside := ((honours _ p h served issued).inside p member).2
    have bounded := good.holds.bounded
    obtain ⟨blocks', next, _⟩ := good.kmalloc served
    obtain ⟨b, _, _, address, _⟩ := (next.live p).mp member
    rw [Plain, not_or] at wraps
    rw [grant_asked_self] at inside
    change p + n ≤ h.heapStart + h.heapSize at inside
    rw [(kmalloc_region served).1, (kmalloc_region served).2] at inside
    omega
  · intro plain fuel p h served _
    obtain ⟨blocks', next, _⟩ := good.kmalloc served
    have after : Good (t.grant n p h).toClient blocks' := next
    exact after.held (good.covered_grant covered plain served)

end Requests

/-- A tenant starts with no pointer on a fresh heap. -/
def Tenant.boot (h : Heap) (start size : Nat) : Tenant := ⟨Mm.boot h start size, fun _ => 0⟩

/-- Every run of plain requests keeps the invariant and all requests covered. -/
theorem tenant_run_covered {h : Heap} {start size : Nat} {ops : List Op} {t : Tenant}
    (valid : ValidRegion start size) (run : Run TenantStep (.boot h start size) ops t) :
    ∃ blocks, Good t.toClient blocks ∧ Covered t := by
  apply run.invariant (fun _ t => ∃ blocks, Good t.toClient blocks ∧ Covered t)
  · refine ⟨_, boot_good valid, ?_⟩
    intro p member
    exact absurd member (Finset.notMem_empty p)
  · rintro _ t op t' _ ⟨blocks, good, covered⟩ step
    obtain ⟨blocks', next, _⟩ := good.step step.client
    exact ⟨blocks', next, good.covered_step covered step⟩

/-- All requests are held, and the next one is honoured exactly when it is plain. -/
structure HoldsRequests (t : Tenant) : Prop where
  held : Held t
  returns : ∀ n, ∃ p h, kmalloc (t.heap.heapSize / 32 + 1) t.heap n = some (p, h)
  honoured : ∀ n < 2 ^ 64, Honours t n ↔ Plain t.heap n

theorem tenant_run_holdsRequests {h : Heap} {start size : Nat} {ops : List Op} {t : Tenant}
    (valid : ValidRegion start size) (run : Run TenantStep (.boot h start size) ops t) : HoldsRequests t := by
  obtain ⟨blocks, good, covered⟩ := tenant_run_covered valid run
  refine ⟨good.held covered, kmalloc_returns good.holds (Nat.lt_succ_self _), ?_⟩
  intro n representable
  exact good.honours_iff covered representable

end OsKernel.Mm

namespace OsKernel.Bump
open Library
open Mm (add64)

/-- A granted request lies inside the array and apart from all earlier ones. -/
def Honours (file : File) (r : Record) (n : Nat) : Prop :=
  ∀ ptr, (file.exec r.arena (.kmalloc n)).1 = some ptr → ptr + n ≤ file.heapSize ∧
    ∀ g ∈ r.grants, Disjoint (Set.Ico g.offset (g.offset + g.size)) (Set.Ico ptr (ptr + n))

/-- All requests are held, and the next one is honoured exactly when its sum does not wrap. -/
structure HoldsRequests (file : File) (r : Record) : Prop where
  inside : ∀ g ∈ r.grants, g.offset + g.size ≤ file.heapSize
  disjoint : r.grants.Pairwise fun g later =>
    Disjoint (Set.Ico g.offset (g.offset + g.size)) (Set.Ico later.offset (later.offset + later.size))
  honoured : ∀ n < 2 ^ 64, Honours file r n ↔ Representable r.arena (.kmalloc n)

section Requests

variable {file : File} {r : Record} {n : Nat}

/-- A sum that wraps passes the check of the bound, and the request is granted at the counter. -/
theorem Packed.oversized_granted (packed : Packed file r) (representable : n < 2 ^ 64)
    (wraps : 2 ^ 64 ≤ r.arena.heapUsed + n) :
    (file.exec r.arena (.kmalloc n)).1 = some r.arena.heapUsed := by
  have bounded := packed.bounded
  have whole := heapSize_eq file
  obtain ⟨answer, _⟩ := exec_request file r.arena (show Call.request (.kmalloc n) = some n from rfl)
  have passed : ¬ add64 r.arena.heapUsed n > file.heapSize := by
    rw [add64]
    omega
  rw [answer, bump, if_neg passed]

theorem Packed.honours_iff (packed : Packed file r) (representable : n < 2 ^ 64) :
    Honours file r n ↔ Representable r.arena (.kmalloc n) := by
  have whole := heapSize_eq file
  constructor
  · intro honours size asked
    obtain rfl : n = size := Option.some.inj asked
    by_contra wraps
    have inside := (honours _ (packed.oversized_granted representable (by omega))).1
    omega
  · intro plain ptr granted
    rcases exec_cases file (show Call.request (.kmalloc n) = some n from rfl) plain with
      ⟨_, refused⟩ | ⟨fits, place, _⟩
    · rw [refused] at granted
      cases granted
    · obtain rfl : r.arena.heapUsed = ptr := Option.some.inj (place.symm.trans granted)
      refine ⟨fits, ?_⟩
      intro g member
      have below := (packed.offsets g member).2
      rw [Set.disjoint_left]
      intro x first second
      have upper := first.2
      have lower := second.1
      omega

end Requests

theorem bump_run_holdsRequests {file : File} {contents : Bytes} {calls : List Call} {r : Record}
    (run : Run (Step file) (start contents) calls r) : HoldsRequests file r := by
  have packed := bump_run_packed run
  have safe := packed.safe
  refine ⟨fun g member => (safe.inside g member).2, safe.disjoint, ?_⟩
  intro n representable
  exact packed.honours_iff representable

end OsKernel.Bump

namespace OsKernel.Mm
open Library

/-- In every run of requests that do not wrap, all three allocators hold every request,
and the next request is honoured exactly when it does not wrap either. -/
theorem allocators_run_holdRequests (h : Heap) (start size : Nat) (ops : List Op) (t : Tenant) (file : Bump.File)
    (contents : Bytes) (calls : List Bump.Call) (r : Bump.Record) :
    (ValidRegion start size → Run TenantStep (.boot h start size) ops t → HoldsRequests t) ∧
    (Run (Bump.Step file) (Bump.start contents) calls r → Bump.HoldsRequests file r) := by
  constructor
  · intro valid run
    exact tenant_run_holdsRequests valid run
  · intro run
    exact Bump.bump_run_holdsRequests run

/-- The sample holds one request in each kind of allocator. -/
theorem allocators_run_holdRequests_sample :
    (∃ t, Run TenantStep (.boot blankHeap 4096 65536) [.kmalloc 100] t ∧ HoldsRequests t) ∧
    (∃ r, Run (Bump.Step .processMm) (Bump.start fun _ => 0) [.kmalloc 100] r ∧ r.grants = [⟨0, 100⟩] ∧
      Bump.HoldsRequests .processMm r) := by
  constructor
  · have valid : ValidRegion 4096 65536 := ⟨by decide, by decide, by decide, by decide⟩
    have answer : (kmalloc 2 (heapInit blankHeap 4096 65536) 100).isSome := by decide +kernel
    obtain ⟨⟨p, h⟩, served⟩ := Option.isSome_iff_exists.mp answer
    have run : Run TenantStep (.boot blankHeap 4096 65536) [.kmalloc 100] _ :=
      .snoc .nil (.kmalloc served (.inl (by norm_num)))
    exact ⟨_, run, (allocators_run_holdRequests blankHeap 4096 65536 [.kmalloc 100] _ .processMm (fun _ => 0) []
      (Bump.start fun _ => 0)).1 valid run⟩
  · have run : Run (Bump.Step .processMm) (Bump.start fun _ => 0) [.kmalloc 100] _ := .snoc .nil (.call (by decide))
    exact ⟨_, run, by decide, (allocators_run_holdRequests blankHeap 4096 65536 [] (.boot blankHeap 4096 65536)
      .processMm (fun _ => 0) [.kmalloc 100] _).2 run⟩

/-- A request close to `2^64` gets an empty block of a fresh heap, and is granted by both arrays. -/
theorem oversized_request_granted :
    ¬ Honours (.boot blankHeap 4096 65536) (2 ^ 64 - 4) ∧
    ∀ file, ∃ r, Run (Bump.Step file) (Bump.start fun _ => 0) [.kmalloc 4] r ∧
      ¬ Bump.Honours file r (2 ^ 64 - 4) := by
  constructor
  · have answer : (kmalloc 2 (heapInit blankHeap 4096 65536) (2 ^ 64 - 4)).map
        (fun r => (r.1, blockSize r.2 r.1, r.2.heapStart, r.2.heapSize)) = some (4128, 0, 4096, 65536) := by
      decide +kernel
    obtain ⟨⟨p, h⟩, served, found⟩ := Option.map_eq_some_iff.mp answer
    obtain ⟨rfl, _, origin, extent⟩ : p = 4128 ∧ blockSize h p = 0 ∧ h.heapStart = 4096 ∧ h.heapSize = 65536 := by
      simpa using found
    intro honours
    have inside := ((honours 2 4128 h served (by norm_num)).inside 4128 (by simp [Tenant.grant])).2
    rw [grant_asked_self] at inside
    change 4128 + (2 ^ 64 - 4) ≤ h.heapStart + h.heapSize at inside
    omega
  · intro file
    have run : Run (Bump.Step file) (Bump.start fun _ => 0) [.kmalloc 4] _ :=
      .snoc .nil (.call (by
        intro size asked
        obtain rfl : 4 = size := Option.some.inj asked
        decide))
    refine ⟨_, run, ?_⟩
    intro honours
    have inside := (honours 4 (by cases file <;> decide)).1
    rw [Bump.heapSize_eq] at inside
    omega

end OsKernel.Mm
