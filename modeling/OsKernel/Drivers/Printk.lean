import OsKernel.Drivers.Itoa

/-
This file models the format loop of `printk` and decides for which formats it stops at their end.
The loop moves behind a percent sign without a look at what it lands on.
-/

namespace OsKernel.Printk
open Library

/-- A string without its terminating null. -/
structure CString where
  text : List UInt8
  nonzero : 0 ∉ text

/-- A variable argument is a string or an `int`. -/
inductive Arg
  | str (s : CString)
  | int (n : Int)

/-- The characters of a buffer up to its first null. -/
def bufferText (m : Bytes) : List UInt8 := ((List.range 32).map m).takeWhile (· ≠ 0)

/-- The characters that `printk` passes on for an `int` in a base. The buffer has any contents before. -/
def numberText (junk : Bytes) (n base : Int) : Option (List UInt8) := (itoa 32 n junk base).map bufferText

/-- The cases of the switch: the characters for a directive, and the arguments that are left.
An argument of the wrong kind has no meaning. -/
def directive (junk : Bytes) (c : UInt8) (args : List Arg) : Option (List UInt8 × List Arg) :=
  if c = 0x73 then
    match args with
    | .str s :: rest => some (s.text, rest)
    | _ => none
  else if c = 0x64 then
    match args with
    | .int n :: rest => (numberText junk n 10).map fun text => (text, rest)
    | _ => none
  else if c = 0x78 then
    match args with
    | .int n :: rest => (numberText junk n 16).map fun text => (text, rest)
    | _ => none
  else if c = 0x63 then
    match args with
    | .int n :: rest => some ([UInt8.ofInt n], rest)
    | _ => none
  else some ([0x25, c], args)

/-- The characters passed to `vga_putc`, and the positions of the format that were read. -/
structure Printed where
  output : List UInt8
  reads : List Nat

def Printed.put (p : Printed) (text : List UInt8) : Printed := { p with output := p.output ++ text }

def Printed.read (p : Printed) (pos : Nat) : Printed := { p with reads := p.reads ++ [pos] }

/-- The loop of `printk` from a position of the format on. -/
def printkLoop (junk format : Bytes) : Nat → Nat → List Arg → Printed → Option Printed
  | 0, _, _, _ => none
  | fuel + 1, pos, args, p =>
      let p := p.read pos
      if format pos = 0 then some p
      else if format pos = 0x25 then
        match directive junk (format (pos + 1)) args with
        | none => none
        | some (text, args) => printkLoop junk format fuel (pos + 2) args ((p.read (pos + 1)).put text)
      else printkLoop junk format fuel (pos + 1) args (p.put [format pos])

/-- `printk` starts at the first character. -/
def printk (junk format : Bytes) (fuel : Nat) (args : List Arg) : Option Printed :=
  printkLoop junk format fuel 0 args ⟨[], []⟩

/-- The digits that `itoa` produces. -/
def itoaText (n base : Int) : List UInt8 := (numberText (fun _ => 0) n base).getD []

/-- An `int` has 32 bits. -/
def IsInt (n : Int) : Prop := -2 ^ 31 ≤ n ∧ n < 2 ^ 31

/-- What a directive stands for, and the arguments behind its own. -/
def meaning (c : UInt8) : List Arg → Option (List UInt8 × List Arg)
  | .str s :: rest => if c = 0x73 then some (s.text, rest) else none
  | .int n :: rest =>
      if c = 0x64 then some (itoaText n 10, rest)
      else if c = 0x78 then some (itoaText n 16, rest)
      else if c = 0x63 then some ([UInt8.ofInt n], rest)
      else none
  | [] => none

/-- The character takes an argument. -/
def takesArg (c : UInt8) : Bool := c = 0x73 ∨ c = 0x64 ∨ c = 0x78 ∨ c = 0x63

/-- The purpose of `printk`: each directive is replaced by its argument, and everything else is passed on. -/
def render : List UInt8 → List Arg → Option (List UInt8)
  | [], _ => some []
  | [c], _ => some [c]
  | c :: d :: rest, args =>
      if c = 0x25 then
        if takesArg d then (meaning d args).bind fun r => (render rest r.2).map (r.1 ++ ·)
        else (render rest args).map ([c, d] ++ ·)
      else (render (d :: rest) args).map (c :: ·)

/-- The format ends in a percent sign that is not the second of a pair. -/
def endsInPercent : List UInt8 → Bool
  | [] => false
  | [c] => c = 0x25
  | c :: d :: rest => if c = 0x25 then endsInPercent rest else endsInPercent (d :: rest)

/-- The arguments fit the format, and each `int` has 32 bits. -/
structure Matching (text : List UInt8) (args : List Arg) : Prop where
  ints : ∀ n, Arg.int n ∈ args → IsInt n
  kinds : (render text args).isSome

/-- The call returns, passes on the rendered format, and reads nothing behind its terminating null. -/
def PrintsExactly (junk format : Bytes) (text : List UInt8) (args : List Arg) : Prop :=
  ∃ fuel printed, printk junk format fuel args = some printed ∧ some printed.output = render text args ∧
    ∀ q ∈ printed.reads, q ≤ text.length

section Numbers

variable {m junk : Bytes} {text : List UInt8} {n : Int} {base : Nat}

/-- The text in a buffer is read up to its end. -/
theorem Stored.bufferText (stored : Stored m text) (short : text.length < 32) (visible : 0 ∉ text) :
    bufferText m = text := by
  obtain ⟨k, split⟩ : ∃ k, 32 = text.length + (k + 1) := ⟨31 - text.length, by omega⟩
  have front : (List.range text.length).map m = text := by
    apply List.ext_getElem (by simp)
    intro i left right
    rw [List.getElem_map, List.getElem_range, stored i (by omega), List.getD_eq_getElem _ _ right]
  have null : m text.length = 0 := by
    rw [stored _ (Nat.le_refl _), List.getD_eq_default]
    exact Nat.le_refl _
  rw [Printk.bufferText, split, List.range_add, List.map_append, front, List.takeWhile_append_of_pos]
  · simp [List.range_succ_eq_map, null]
  · intro c member
    have nonzero : c ≠ 0 := fun same => visible (same ▸ member)
    simpa using nonzero

/-- The digits of a number do not depend on what the buffer held before. -/
theorem numberText_eq (junk : Bytes) (known : base = 10 ∨ base = 16) (range : IsInt n) :
    numberText junk n base = some (itoaText n base) := by
  obtain ⟨text, short, visible, total⟩ := itoa_total range.1 range.2 known
  have same (str : Bytes) : numberText str n base = some text := by
    obtain ⟨str', ended, stored⟩ := total str
    rw [numberText, ended, Option.map_some, stored.bufferText short visible]
  rw [itoaText, same, same]
  rfl

end Numbers

section Directives

variable {junk : Bytes} {c : UInt8} {args : List Arg}

/-- A directive does what it stands for. -/
theorem directive_eq (junk : Bytes) (taken : takesArg c = true) (ints : ∀ n, Arg.int n ∈ args → IsInt n) :
    directive junk c args = meaning c args := by
  simp only [takesArg, decide_eq_true_eq] at taken
  cases args with
  | nil =>
      rcases taken with rfl | rfl | rfl | rfl <;> rfl
  | cons a rest =>
      cases a with
      | str s =>
          rcases taken with rfl | rfl | rfl | rfl <;> rfl
      | int n =>
          have range := ints n List.mem_cons_self
          have decimal := numberText_eq junk (.inl rfl) range
          have hex := numberText_eq junk (.inr rfl) range
          rcases taken with rfl | rfl | rfl | rfl
          · rfl
          · simpa [directive, meaning] using decimal
          · simpa [directive, meaning] using hex
          · rfl

/-- Any other pair is passed on. -/
theorem directive_other (junk : Bytes) (args : List Arg) (other : takesArg c = false) :
    directive junk c args = some ([0x25, c], args) := by
  simp only [takesArg, decide_eq_false_iff_not, not_or] at other
  simp only [directive, other.1, other.2.1, other.2.2.1, other.2.2.2, if_false]

/-- The arguments behind a directive are arguments of the call. -/
theorem meaning_ints {text : List UInt8} {rest : List Arg} (meant : meaning c args = some (text, rest))
    (ints : ∀ n, Arg.int n ∈ args → IsInt n) : ∀ n, Arg.int n ∈ rest → IsInt n := by
  intro n member
  cases args with
  | nil => cases meant
  | cons a others =>
      have same : rest = others := by
        cases a with
        | str s =>
            simp only [meaning, Option.ite_none_right_eq_some, Option.some.injEq, Prod.mk.injEq] at meant
            exact meant.2.2.symm
        | int n =>
            simp only [meaning] at meant
            grind
      exact ints n (List.mem_cons_of_mem a (same ▸ member))

/-- A pair at the start of a format is rendered by its directive, and the rest by the arguments behind it. -/
theorem directive_renders (junk : Bytes) {rest out : List UInt8} (ints : ∀ n, Arg.int n ∈ args → IsInt n)
    (rendered : render (0x25 :: c :: rest) args = some out) : ∃ text later tail,
      directive junk c args = some (text, later) ∧ (∀ n, Arg.int n ∈ later → IsInt n) ∧
        render rest later = some tail ∧ out = text ++ tail := by
  rw [render, if_pos rfl] at rendered
  by_cases taken : takesArg c = true
  · rw [if_pos taken, Option.bind_eq_some_iff] at rendered
    obtain ⟨⟨text, later⟩, meant, remaining⟩ := rendered
    obtain ⟨tail, cut, rfl⟩ := Option.map_eq_some_iff.mp remaining
    exact ⟨text, later, tail, (directive_eq junk taken ints).trans meant, meaning_ints meant ints, cut, rfl⟩
  · rw [if_neg taken, Option.map_eq_some_iff] at rendered
    obtain ⟨tail, cut, rfl⟩ := rendered
    exact ⟨_, args, tail, directive_other junk args (Bool.eq_false_of_not_eq_true taken), ints, cut, rfl⟩

end Directives

section Loop

variable {junk format : Bytes} {text rest : List UInt8} {c : UInt8} {pos fuel : Nat} {args : List Arg}
  {p printed : Printed}

/-- The rest of the format and its null are at a position. -/
def RestAt (format : Bytes) (pos : Nat) (rest : List UInt8) : Prop :=
  ∀ k, k ≤ rest.length → format (pos + k) = rest.getD k 0

theorem RestAt.head (at' : RestAt format pos (c :: rest)) : format pos = c := at' 0 (Nat.zero_le _)

theorem RestAt.tail (at' : RestAt format pos (c :: rest)) : RestAt format (pos + 1) rest := by
  intro k inside
  have shifted := at' (k + 1) (by simpa using inside)
  rwa [List.getD_cons_succ, Nat.add_comm k 1, ← Nat.add_assoc] at shifted

theorem RestAt.null (at' : RestAt format pos []) : format pos = 0 := at' 0 (Nat.zero_le _)

/-- The loop stops at a null. -/
theorem printkLoop_end (null : format pos = 0) :
    printkLoop junk format (fuel + 1) pos args p = some (p.read pos) := by
  simp only [printkLoop, null, if_true]

/-- A plain character is passed on. -/
theorem printkLoop_plain (visible : format pos ≠ 0) (plain : format pos ≠ 0x25) :
    printkLoop junk format (fuel + 1) pos args p =
      printkLoop junk format fuel (pos + 1) args ((p.read pos).put [format pos]) := by
  simp only [printkLoop, if_neg visible, if_neg plain]

/-- A percent sign is handled together with the character behind it. -/
theorem printkLoop_percent (percent : format pos = 0x25) : printkLoop junk format (fuel + 1) pos args p =
    (directive junk (format (pos + 1)) args).bind fun r =>
      printkLoop junk format fuel (pos + 2) r.2 (((p.read pos).read (pos + 1)).put r.1) := by
  have visible : ¬ format pos = 0 := by
    rw [percent]
    decide
  simp only [printkLoop, if_neg visible, if_pos percent]
  cases directive junk (format (pos + 1)) args <;> rfl

/-- A run that starts at a percent sign goes on behind the pair. -/
theorem printkLoop_behind (percent : format pos = 0x25)
    (ended : printkLoop junk format fuel pos args p = some printed) : ∃ fuel' text later,
      printkLoop junk format fuel' (pos + 2) later (((p.read pos).read (pos + 1)).put text) = some printed := by
  cases fuel with
  | zero => cases ended
  | succ fuel =>
      rw [printkLoop_percent percent] at ended
      obtain ⟨r, _, later⟩ := Option.bind_eq_some_iff.mp ended
      exact ⟨fuel, r.1, r.2, later⟩

@[simp] theorem read_reads : (p.read pos).reads = p.reads ++ [pos] := rfl

@[simp] theorem read_output : (p.read pos).output = p.output := rfl

@[simp] theorem put_reads : (p.put text).reads = p.reads := rfl

@[simp] theorem put_output : (p.put text).output = p.output ++ text := rfl

/-- A run reads its first position, and keeps what was read before. -/
theorem printkLoop_reads (ended : printkLoop junk format fuel pos args p = some printed) :
    pos ∈ printed.reads ∧ p.reads ⊆ printed.reads := by
  induction fuel generalizing pos args p with
  | zero => cases ended
  | succ fuel ih =>
      by_cases null : format pos = 0
      · rw [printkLoop_end null] at ended
        obtain rfl := Option.some.inj ended
        simp
      · by_cases percent : format pos = 0x25
        · rw [printkLoop_percent percent] at ended
          obtain ⟨r, _, later⟩ := Option.bind_eq_some_iff.mp ended
          have kept := (ih later).2
          simp only [put_reads, read_reads, List.append_subset, List.cons_subset] at kept
          exact ⟨kept.1.2.1, kept.1.1⟩
        · rw [printkLoop_plain null percent] at ended
          have kept := (ih ended).2
          simp only [put_reads, read_reads, List.append_subset, List.cons_subset] at kept
          exact ⟨kept.2.1, kept.1⟩

/-- A format that ends in a lone percent sign is read behind its null. -/
theorem printkLoop_overruns (placed : RestAt format pos rest) (visible : 0 ∉ rest)
    (lone : endsInPercent rest = true) (ended : printkLoop junk format fuel pos args p = some printed) :
    pos + rest.length + 1 ∈ printed.reads := by
  induction rest using endsInPercent.induct generalizing pos args p fuel with
  | case1 => cases lone
  | case2 c =>
      have percent : format pos = 0x25 := by
        rw [placed.head]
        simpa [endsInPercent] using lone
      obtain ⟨_, _, _, later⟩ := printkLoop_behind percent ended
      exact (printkLoop_reads later).1
  | case3 d rest ih =>
      obtain ⟨_, _, _, later⟩ := printkLoop_behind placed.head ended
      have hidden : 0 ∉ rest := fun member => visible (by simp [member])
      have further := ih placed.tail.tail hidden (by simpa [endsInPercent] using lone) later
      rw [List.length_cons, List.length_cons]
      rwa [show pos + (rest.length + 1 + 1) + 1 = pos + 1 + 1 + rest.length + 1 by omega]
  | case4 c d rest plain ih =>
      have head : format pos = c := placed.head
      have shown : c ≠ 0 := fun null => visible (by simp [null])
      cases fuel with
      | zero => cases ended
      | succ fuel =>
          rw [printkLoop_plain (head ▸ shown) (head ▸ plain)] at ended
          have hidden : 0 ∉ d :: rest := fun member => visible (List.mem_cons_of_mem c member)
          have further := ih placed.tail hidden (by simpa [endsInPercent, plain] using lone) ended
          rw [List.length_cons]
          rwa [show pos + ((d :: rest).length + 1) + 1 = pos + 1 + (d :: rest).length + 1 by omega]

/-- The loop ends, adds a text to the output, and reads no new position behind `stop`. -/
def Prints (junk format : Bytes) (stop pos : Nat) (args : List Arg) (p : Printed) (out : List UInt8) : Prop :=
  ∃ fuel printed, printkLoop junk format fuel pos args p = some printed ∧ printed.output = p.output ++ out ∧
    ∀ q ∈ printed.reads, q ∈ p.reads ∨ q ≤ stop

/-- A null ends the loop. -/
theorem prints_end {stop : Nat} (null : format pos = 0) (before : pos ≤ stop) :
    Prints junk format stop pos args p [] := by
  refine ⟨1, p.read pos, printkLoop_end null, by simp, ?_⟩
  intro q member
  rw [read_reads, List.mem_append, List.mem_singleton] at member
  exact member.imp_right fun here => here.trans_le before

/-- A plain character comes in front of what the rest prints. -/
theorem Prints.plain {stop : Nat} {out : List UInt8} (visible : format pos ≠ 0) (plain : format pos ≠ 0x25)
    (before : pos ≤ stop) (later : Prints junk format stop (pos + 1) args ((p.read pos).put [format pos]) out) :
    Prints junk format stop pos args p (format pos :: out) := by
  obtain ⟨fuel, printed, ended, output, reads⟩ := later
  refine ⟨fuel + 1, printed, (printkLoop_plain visible plain).trans ended, ?_, ?_⟩
  · rw [output]
    simp
  · intro q member
    have known := reads q member
    simp only [put_reads, read_reads, List.mem_append, List.mem_singleton] at known
    rcases known with (old | rfl) | behind
    · exact .inl old
    · exact .inr before
    · exact .inr behind

/-- The text of a directive comes in front of what the rest prints. -/
theorem Prints.percent {stop : Nat} {out : List UInt8} {later : List Arg} (percent : format pos = 0x25)
    (before : pos + 1 ≤ stop) (handled : directive junk (format (pos + 1)) args = some (text, later))
    (printed : Prints junk format stop (pos + 2) later (((p.read pos).read (pos + 1)).put text) out) :
    Prints junk format stop pos args p (text ++ out) := by
  obtain ⟨fuel, printed, ended, output, reads⟩ := printed
  refine ⟨fuel + 1, printed, ?_, ?_, ?_⟩
  · rw [printkLoop_percent percent, handled, Option.bind_some]
    exact ended
  · rw [output]
    simp
  · intro q member
    have known := reads q member
    simp only [put_reads, read_reads, List.mem_append, List.mem_singleton] at known
    rcases known with ((old | rfl) | rfl) | behind
    · exact .inl old
    · exact .inr (Nat.le_of_succ_le before)
    · exact .inr before
    · exact .inr behind

/-- Any other format is rendered, and nothing behind its null is read. -/
theorem printkLoop_renders {stop : Nat} (placed : RestAt format pos rest) (visible : 0 ∉ rest)
    (paired : endsInPercent rest = false) (ints : ∀ n, Arg.int n ∈ args → IsInt n) (last : stop = pos + rest.length)
    {out : List UInt8} (rendered : render rest args = some out) : Prints junk format stop pos args p out := by
  induction rest using endsInPercent.induct generalizing pos args p out with
  | case1 =>
      obtain rfl := Option.some.inj rendered
      exact prints_end placed.null last.ge
  | case2 c =>
      have head : format pos = c := placed.head
      have shown : c ≠ 0 := fun null => visible (by simp [null])
      have plain : c ≠ 0x25 := by simpa [endsInPercent] using paired
      obtain rfl := Option.some.inj rendered
      rw [List.length_singleton] at last
      rw [← head]
      exact .plain (head ▸ shown) (head ▸ plain) (by omega) (prints_end placed.tail.null last.ge)
  | case3 d rest ih =>
      have next : format (pos + 1) = d := placed.tail.head
      have hidden : 0 ∉ rest := fun member => visible (by simp [member])
      have even : endsInPercent rest = false := by simpa [endsInPercent] using paired
      obtain ⟨text, later, tail, handled, kept, cut, rfl⟩ : ∃ text later tail,
          directive junk d args = some (text, later) ∧ (∀ n, Arg.int n ∈ later → IsInt n) ∧
            render rest later = some tail ∧ out = text ++ tail := directive_renders junk ints rendered
      rw [List.length_cons, List.length_cons] at last
      rw [← next] at handled
      exact .percent placed.head (by omega) handled (ih placed.tail.tail hidden even kept (by omega) cut)
  | case4 c d rest plain ih =>
      have head : format pos = c := placed.head
      have shown : c ≠ 0 := fun null => visible (by simp [null])
      have hidden : 0 ∉ d :: rest := fun member => visible (List.mem_cons_of_mem c member)
      have even : endsInPercent (d :: rest) = false := by simpa [endsInPercent, plain] using paired
      rw [render, if_neg plain, Option.map_eq_some_iff] at rendered
      obtain ⟨tail, cut, rfl⟩ := rendered
      rw [List.length_cons] at last
      rw [← head]
      exact .plain (head ▸ shown) (head ▸ plain) (by omega) (ih placed.tail hidden even ints (by omega) cut)

end Loop

/-- `printk` prints a format exactly when it does not end in a lone percent sign. -/
theorem printk_printsExactly_iff (junk format : Bytes) (text : List UInt8) (args : List Arg)
    (stored : Stored format text) (visible : 0 ∉ text) (matching : Matching text args) :
    PrintsExactly junk format text args ↔ endsInPercent text = false := by
  have placed : RestAt format 0 text := by
    intro k inside
    rw [Nat.zero_add]
    exact stored k inside
  constructor
  · rintro ⟨fuel, printed, ended, _, bounded⟩
    by_contra lone
    have overrun := printkLoop_overruns placed visible (by simpa using lone) ended
    have inside := bounded _ overrun
    omega
  · intro paired
    obtain ⟨out, rendered⟩ := Option.isSome_iff_exists.mp matching.kinds
    obtain ⟨fuel, printed, ended, output, reads⟩ :=
      printkLoop_renders (p := ⟨[], []⟩) placed visible paired matching.ints rfl rendered
    refine ⟨fuel, printed, ended, ?_, ?_⟩
    · rw [rendered, output, List.nil_append]
    · intro q member
      have known := reads q member
      simpa using known

/-- A text in memory with its null and zeros behind it. -/
def inMemory (text : List UInt8) : Bytes := fun k => text.getD k 0

/-- The sample is `a%d%%` with one number. -/
theorem printk_printsExactly_sample :
    PrintsExactly (fun _ => 0) (inMemory [0x61, 0x25, 0x64, 0x25, 0x25]) [0x61, 0x25, 0x64, 0x25, 0x25] [.int (-42)] := by
  apply (printk_printsExactly_iff _ _ _ _ (fun k _ => rfl) (by decide) ⟨?_, ?_⟩).mpr (by decide)
  · intro n member
    simp only [List.mem_singleton, Arg.int.injEq] at member
    rw [member, IsInt]
    norm_num
  · decide +kernel

/-- The format `%` is read behind its null. -/
theorem lone_percent_overruns : ¬ ∀ junk format text args, Stored format text → 0 ∉ text →
    Matching text args → PrintsExactly junk format text args := by
  intro all
  have matching : Matching [0x25] [] := ⟨fun n member => absurd member (List.not_mem_nil), rfl⟩
  obtain ⟨fuel, printed, ended, _, bounded⟩ :=
    all (fun _ => 0) (inMemory [0x25]) [0x25] [] (fun k _ => rfl) (by decide) matching
  have placed : RestAt (inMemory [0x25]) 0 [0x25] := fun k _ => by rw [Nat.zero_add]; rfl
  have overrun := printkLoop_overruns placed (by decide) (by decide) ended
  have inside := bounded _ overrun
  exact absurd inside (by decide)

end OsKernel.Printk
