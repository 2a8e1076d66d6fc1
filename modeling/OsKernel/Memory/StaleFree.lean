import OsKernel.Memory.HeapSafety

/-
This file decides when `kfree` rejects a pointer that was already freed.
A free keeps the magic word of the header, so only a later write over that word makes the pointer invalid.
-/

namespace OsKernel.Mm
open Library

/-- A holder keeps every pointer that it was given, also after it freed it. -/
structure Holder extends Client where
  issued : Finset Nat

/-- A holder frees null or any pointer that it was given before. -/
inductive HolderStep : Holder → Op → Holder → Prop
  | kmalloc {s : Holder} {n fuel p : Nat} {h : Heap} (served : Mm.kmalloc fuel s.heap n = some (p, h)) :
      HolderStep s (.kmalloc n)
        ⟨⟨h, if p = 0 then s.live else insert p s.live⟩, if p = 0 then s.issued else insert p s.issued⟩
  | kfree {s : Holder} {p : Nat} (allowed : p = 0 ∨ p ∈ s.issued) :
      HolderStep s (.kfree p) ⟨⟨Mm.kfree s.heap p, s.live.erase p⟩, s.issued⟩
  | write {s : Holder} {mem : Bytes} (permitted : Permitted s.toClient mem) :
      HolderStep s (.write mem) ⟨⟨{ s.heap with mem := mem }, s.live⟩, s.issued⟩

/-- A holder starts with no pointer on a fresh heap. -/
def Holder.boot (h : Heap) (start size : Nat) : Holder := ⟨Mm.boot h start size, ∅⟩

/-- The operation frees a pointer that is not live. -/
def IsStale (s : Holder) (op : Op) (p : Nat) : Prop := op = .kfree p ∧ p ≠ 0 ∧ p ∉ s.live

/-- The word in front of the payload no longer holds the magic value. -/
def Overwritten (h : Heap) (p : Nat) : Prop := h.get .magic (sub64 p 32) ≠ heapMagic

/-- A stale free of this step changes nothing, and the free size stays in the heap. -/
structure HarmlessStep (s : Holder) (op : Op) (s' : Holder) : Prop where
  step : HolderStep s op s'
  rejected : ∀ p, IsStale s op p → s'.heap = s.heap
  bounded : s'.heap.freeSize ≤ s'.heap.heapSize

/-- A stale free of this step names a header whose magic word was overwritten. -/
structure WornStep (s : Holder) (op : Op) (s' : Holder) : Prop where
  step : HolderStep s op s'
  worn : ∀ p, IsStale s op p → Overwritten s.heap p

section Frees

variable {h : Heap} {p : Nat} {s s' : Holder} {op : Op} {blocks : List Block}

/-- The free size changes only where a block is marked, not where blocks are merged. -/
theorem mergeNext_freeSize (h : Heap) (block : Nat) : (mergeNext h block).freeSize = h.freeSize := by
  rw [mergeNext]
  split
  · exact absorb_freeSize
  · rfl

theorem mergePrev_freeSize (h : Heap) (block : Nat) : (mergePrev h block).freeSize = h.freeSize := by
  rw [mergePrev]
  split
  · exact absorb_freeSize
  · rfl

theorem freeBlock_freeSize (h : Heap) (block : Nat) : (freeBlock h block).freeSize =
    add64 h.freeSize ((h.set .isFree block 1).get .size block + 32) := by
  rw [freeBlock, set_freeSize]

/-- An accepted free always changes the free size. -/
theorem kfree_accepted (issued : p ≠ 0) (intact : ¬ Overwritten h p) : (kfree h p).freeSize ≠ h.freeSize := by
  have accepted : ¬ (h.get .magic (sub64 p 32) ≠ heapMagic) := intact
  rw [kfree, if_neg issued]
  dsimp only
  rw [if_neg accepted, mergePrev_freeSize, mergeNext_freeSize, freeBlock_freeSize, add64]
  have small : (h.set .isFree (sub64 p 32) 1).get .size (sub64 p 32) < 256 ^ 4 := load_lt _ _ _
  generalize (h.set .isFree (sub64 p 32) 1).get .size (sub64 p 32) = size at small ⊢
  omega

/-- A rejected free changes nothing. -/
theorem kfree_rejected (worn : Overwritten h p) : kfree h p = h := by
  rw [kfree]
  split
  · rfl
  · exact if_pos worn

/-- A step on worn headers keeps the invariant. -/
theorem Good.worn (good : Good s.toClient blocks) (taken : WornStep s op s') :
    ∃ blocks', Good s'.toClient blocks' := by
  obtain ⟨step, worn⟩ := taken
  cases step with
  | kmalloc served =>
      obtain ⟨blocks', next, _⟩ := good.kmalloc served
      exact ⟨blocks', next⟩
  | @kfree p allowed =>
      by_cases known : p = 0 ∨ p ∈ s.live
      · obtain ⟨blocks', next, _⟩ := good.kfree known
        exact ⟨blocks', next⟩
      · rw [not_or] at known
        have unchanged := kfree_rejected (worn p ⟨rfl, known.1, known.2⟩)
        rw [unchanged, Finset.erase_eq_of_notMem known.2]
        exact ⟨blocks, good⟩
  | write permitted => exact ⟨blocks, good.write permitted⟩

/-- The free size of a heap in order is at most the heap size. -/
theorem Good.freeSize_le {c : Client} (good : Good c blocks) : c.heap.freeSize ≤ c.heap.heapSize := by
  have inside := good.holds.tiles.freeBytes_le
  rw [good.holds.account]
  omega

/-- A stale free with an intact magic word is not harmless. -/
theorem HarmlessStep.wornStep (harmless : HarmlessStep s op s') : WornStep s op s' := by
  obtain ⟨step, rejected, _⟩ := harmless
  refine ⟨step, ?_⟩
  rintro p stale
  have unchanged := rejected p stale
  obtain ⟨rfl, issued, _⟩ := stale
  cases step with
  | kfree allowed =>
      by_contra intact
      exact kfree_accepted issued intact (congrArg Heap.freeSize unchanged)

end Frees

section Runs

variable {h : Heap} {start size : Nat} {ops : List Op} {s : Holder}

/-- Every run on worn headers keeps the invariant. -/
theorem worn_run_good (valid : ValidRegion start size) (run : Run WornStep (.boot h start size) ops s) :
    ∃ blocks, Good s.toClient blocks := by
  induction run with
  | nil => exact ⟨_, boot_good valid⟩
  | snoc _ taken ih =>
      obtain ⟨blocks, good⟩ := ih
      exact good.worn taken

/-- Merging backward keeps the magic word of the block in the middle. -/
theorem Holds.magic_mergePrev {left right : List Block} {b : Block} (holds : Holds h (left ++ b :: right)) :
    (Mm.mergePrev h b.addr).get .magic b.addr = heapMagic := by
  have intact : h.get .magic b.addr = heapMagic := (holds.headers b (by simp)).magic
  cases left using List.reverseRecOn with
  | nil =>
      rw [Holds.mergePrev_first holds]
      exact intact
  | append_singleton front a _ =>
      rw [List.append_assoc] at holds
      change Holds h (front ++ a :: b :: right) at holds
      have named : h.get .prev b.addr = a.addr := by
        rw [holds.shift.prev_eq]
        simp
      rw [Mm.mergePrev, named]
      split
      · rw [holds.get_absorb (c := b) (by simp)]
        simpa using intact
      · exact intact

/-- A free leaves the magic word of its block, so a second free right after it is accepted. -/
theorem Good.second_free {c : Client} {blocks : List Block} {p : Nat} (good : Good c blocks) (member : p ∈ c.live) :
    ¬ Overwritten (Mm.kfree c.heap p) p := by
  obtain ⟨b, listed, taken, rfl, fits, _⟩ := good.block_of_live member
  have header : sub64 (b.addr + 32) 32 = b.addr := by
    rw [sub64]
    omega
  rw [Overwritten, not_not, header, good.holds.kfree_eq listed fits]
  obtain ⟨left, right, rfl⟩ := List.append_of_mem listed
  have merged := (good.holds.freeBlock taken).mergeNext rfl
  obtain ⟨d, others, shape, same, _⟩ := glue_eq_cons 32 { b with free := true } right
  change d.addr = b.addr at same
  rw [shape] at merged
  have intact := merged.magic_mergePrev
  rwa [same] at intact

end Runs

/-- The stale frees of a run are harmless exactly when each of them names an overwritten header. -/
theorem stale_frees_harmless_iff (h : Heap) (start size : Nat) (ops : List Op) (s : Holder)
    (valid : ValidRegion start size) :
    Run HarmlessStep (.boot h start size) ops s ↔ Run WornStep (.boot h start size) ops s := by
  constructor
  · intro run
    exact run.mono fun _ _ _ harmless => harmless.wornStep
  · intro run
    induction run with
    | nil => exact .nil
    | snoc earlier worn ih =>
        refine .snoc ih ⟨worn.step, ?_, ?_⟩
        · intro p stale
          have unchanged := kfree_rejected (worn.worn p stale)
          obtain ⟨rfl, _, _⟩ := stale
          cases worn.step with
          | kfree allowed => exact unchanged
        · obtain ⟨blocks, good⟩ := worn_run_good valid (earlier.snoc worn)
          exact good.freeSize_le

section Samples

variable {s : Holder} {n p : Nat}

/-- The heap after an answered request. -/
def heapAfter (h : Heap) (n : Nat) : Heap := ((kmalloc (h.heapSize / 32 + 1) h n).getD (0, h)).2

/-- The holder after an answered request. -/
def Holder.grant (s : Holder) (n p : Nat) : Holder :=
  ⟨⟨heapAfter s.heap n, insert p s.live⟩, insert p s.issued⟩

/-- The holder after a free. -/
def Holder.drop (s : Holder) (p : Nat) : Holder := ⟨⟨kfree s.heap p, s.live.erase p⟩, s.issued⟩

/-- An answered request is a step. -/
theorem HolderStep.grant (answer : (Mm.kmalloc (s.heap.heapSize / 32 + 1) s.heap n).map Prod.fst = some p)
    (issued : p ≠ 0) : HolderStep s (.kmalloc n) (s.grant n p) := by
  obtain ⟨⟨q, h⟩, served, same⟩ := Option.map_eq_some_iff.mp answer
  obtain rfl : q = p := same
  have after : heapAfter s.heap n = h := by
    rw [heapAfter, served]
    rfl
  have step := HolderStep.kmalloc served
  rw [if_neg issued, if_neg issued] at step
  rw [Holder.grant, after]
  exact step

/-- A request has no stale free, and neither has a free of a live pointer. -/
theorem WornStep.grant (answer : (Mm.kmalloc (s.heap.heapSize / 32 + 1) s.heap n).map Prod.fst = some p)
    (issued : p ≠ 0) : WornStep s (.kmalloc n) (s.grant n p) := by
  refine ⟨.grant answer issued, ?_⟩
  rintro q ⟨other, _⟩
  cases other

theorem WornStep.drop (known : p ∈ s.issued) (fresh : p ∈ s.live ∨ Overwritten s.heap p) :
    WornStep s (.kfree p) (s.drop p) := by
  refine ⟨.kfree (.inr known), ?_⟩
  rintro q ⟨same, _, dead⟩
  cases same
  exact fresh.resolve_left dead

/-- Two blocks are freed, and the header of a third one covers the magic word of the second. -/
def wornHolder : Holder :=
  ((((Holder.boot blankHeap 4096 256).grant 16 4128).grant 16 4176).drop 4176).drop 4128 |>.grant 0 4128

end Samples

/-- The sample frees a stale pointer whose magic word was overwritten. -/
theorem stale_frees_harmless_sample : 4176 ∉ wornHolder.live ∧ Run HarmlessStep (.boot blankHeap 4096 256)
    [.kmalloc 16, .kmalloc 16, .kfree 4176, .kfree 4128, .kmalloc 0, .kfree 4176] (wornHolder.drop 4176) := by
  have valid : ValidRegion 4096 256 := ⟨by decide, by decide, by decide, by decide⟩
  have worn : Overwritten wornHolder.heap 4176 := by
    rw [Overwritten]
    decide +kernel
  have first := Run.snoc .nil (WornStep.grant (s := .boot blankHeap 4096 256) (n := 16) (p := 4128)
    (by decide +kernel) (by norm_num))
  have second := first.snoc (WornStep.grant (n := 16) (p := 4176) (by decide +kernel) (by norm_num))
  have third := second.snoc (WornStep.drop (p := 4176) (by decide +kernel) (.inl (by decide +kernel)))
  have fourth := third.snoc (WornStep.drop (p := 4128) (by decide +kernel) (.inl (by decide +kernel)))
  have fifth := fourth.snoc (WornStep.grant (n := 0) (p := 4128) (by decide +kernel) (by norm_num))
  have last := fifth.snoc (WornStep.drop (p := 4176) (by decide +kernel) (.inr worn))
  exact ⟨by decide +kernel, (stale_frees_harmless_iff blankHeap 4096 256 _ _ valid).mpr last⟩

/-- A second free of the same pointer is accepted, and the free size exceeds the heap size. -/
theorem double_free_exceeds : ∃ s,
    Run HolderStep (.boot blankHeap 4096 65536) [.kmalloc 100, .kfree 4128, .kfree 4128] s ∧
      s.heap.heapSize < s.heap.freeSize := by
  have served := HolderStep.grant (s := .boot blankHeap 4096 65536) (n := 100) (p := 4128)
    (by decide +kernel) (by norm_num)
  have freed := (Run.snoc .nil served).snoc (.kfree (p := 4128) (.inr (by decide +kernel)))
  exact ⟨_, freed.snoc (.kfree (p := 4128) (.inr (by decide +kernel))), by decide +kernel⟩

end OsKernel.Mm
