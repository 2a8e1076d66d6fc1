import OsKernel.Library.Ports

/-
This file models how `keyboard_init` talks to the keyboard controller, with the controller as any device.
It polls the status before each byte, and asks at most four times for the scan to be enabled.
-/

namespace OsKernel.Keyboard
open Library

def keyboardDataPort : Nat := 0x60

def keyboardStatusPort : Nat := 0x64

/-- The controller holds a byte for the processor. -/
def outputFull (status : UInt8) : Bool := status &&& 0x01 ≠ 0

/-- The controller has taken the last byte from the processor. -/
def inputEmpty (status : UInt8) : Bool := status &&& 0x02 = 0

def ack : UInt8 := 0xFA

def resend : UInt8 := 0xFE

variable {D : Type}

/-- A loop waits for the input buffer, and a byte is written. -/
def send (P : Ports D) (fuel port : Nat) (byte : UInt8) (b : Bus D) : Option (Bus D) :=
  (poll P keyboardStatusPort inputEmpty fuel b).map fun b => b.outb P port byte

/-- A loop waits for the output buffer, and its byte is read. -/
def receive (P : Ports D) (fuel : Nat) (b : Bus D) : Option (UInt8 × Bus D) :=
  (poll P keyboardStatusPort outputFull fuel b).map fun b => b.inb P keyboardDataPort

/-- The loop of `try_enable_keyboard` sends the command again and stops at an acknowledgement. -/
def retry (P : Ports D) (fuel : Nat) : Nat → Bus D → Option (Int × Bus D)
  | 0, b => some (-1, b)
  | count + 1, b =>
      (send P fuel keyboardDataPort 0xF4 b).bind fun b =>
        (receive P fuel b).bind fun r => if r.1 = ack then some (0, r.2) else retry P fuel count r.2

def tryEnableKeyboard (P : Ports D) (fuel : Nat) (b : Bus D) : Option (Int × Bus D) :=
  (receive P fuel b).bind fun r =>
    if r.1 = ack then some (0, r.2) else if r.1 = resend then retry P fuel 3 r.2 else some (-1, r.2)

/-- The part of `keyboard_init` between the registration of the handler and the message. -/
def enableKeyboard (P : Ports D) (fuel : Nat) (b : Bus D) : Option (Int × Bus D) :=
  (send P fuel keyboardStatusPort 0xD4 b).bind fun b =>
    (send P fuel keyboardDataPort 0xF4 b).bind fun b => tryEnableKeyboard P fuel b

/-- The controller takes every byte in the end, and it answers every command to enable the scan. -/
structure Responsive (P : Ports D) : Prop where
  drained : ∀ d, Reads P keyboardStatusPort inputEmpty d
  answered : ∀ d, Reads P keyboardStatusPort outputFull (P.outb keyboardDataPort 0xF4 d)

/-- A byte is written just behind a status with an empty input buffer, and read just behind one with a full output
buffer. -/
def Guarded (earlier : Access) : Access → Prop
  | .outb _ _ => ∃ status, earlier = .inb keyboardStatusPort status ∧ inputEmpty status = true
  | .inb port _ => port = keyboardDataPort →
      ∃ status, earlier = .inb keyboardStatusPort status ∧ outputFull status = true

/-- The accesses of a finished call: the command goes out once for each answer, a second command needs a request for it,
and the result tells whether the last answer acknowledges. -/
structure Handshake (added : List Access) (answers : List UInt8) (result : Int) : Prop where
  guarded : Obeys Guarded added
  commands : written added =
    (keyboardStatusPort, 0xD4) :: List.replicate answers.length (keyboardDataPort, 0xF4)
  replies : readFrom keyboardDataPort added = answers
  least : 1 ≤ answers.length
  most : answers.length ≤ 4
  repeated : 1 < answers.length → answers.head? = some resend
  early : ack ∉ answers.dropLast
  enabled : result = 0 ↔ answers.getLast? = some ack
  failed : result ≠ 0 → result = -1 ∧ (answers.length = 1 ∨ answers.length = 4)

section Parts

variable {P : Ports D} {b b' b₁ b₂ : Bus D} {fuel more count : Nat} {port : Nat} {byte : UInt8}
  {sent more' : List (Nat × UInt8)} {got later : List UInt8} {result : Int}

/-- The accesses between two states keep the rule and have the given writes and answers. -/
def Part (b b' : Bus D) (sent : List (Nat × UInt8)) (got : List UInt8) : Prop :=
  ∃ added, b'.trace = b.trace ++ added ∧ Obeys Guarded added ∧ written added = sent ∧
    readFrom keyboardDataPort added = got

theorem Part.trans (first : Part b b₁ sent got) (second : Part b₁ b₂ more' later) :
    Part b b₂ (sent ++ more') (got ++ later) := by
  obtain ⟨added, trace, obeys, rfl, rfl⟩ := first
  obtain ⟨next, again, also, rfl, rfl⟩ := second
  refine ⟨added ++ next, ?_, obeys.append also, written_append _ _, readFrom_append _ _⟩
  rw [again, trace, List.append_assoc]

/-- The status may be read at any time. -/
theorem guarded_status (earlier : Access) (status : UInt8) : Guarded earlier (.inb keyboardStatusPort status) := by
  intro same
  exact absurd same (by decide)

theorem send_part (done : send P fuel port byte b = some b') : Part b b' [(port, byte)] [] := by
  obtain ⟨b₁, polled, rfl⟩ := Option.map_eq_some_iff.mp done
  obtain ⟨added, trace, loop⟩ := poll_polled polled
  refine ⟨added ++ [.outb port byte], ?_, ?_, ?_, ?_⟩
  · rw [Bus.outb, trace, List.append_assoc]
  · exact loop.then guarded_status fun status empty => ⟨status, rfl, empty⟩
  · rw [written_append, loop.written, written_outb, List.nil_append]
  · rw [readFrom_append, loop.readFrom (by decide), readFrom_outb, List.nil_append]

theorem receive_part {answer : UInt8} (done : receive P fuel b = some (answer, b')) : Part b b' [] [answer] := by
  obtain ⟨b₁, polled, read⟩ := Option.map_eq_some_iff.mp done
  obtain ⟨rfl, rfl⟩ := Prod.mk.inj read
  obtain ⟨added, trace, loop⟩ := poll_polled polled
  refine ⟨added ++ [.inb keyboardDataPort (P.inb keyboardDataPort b₁.device).1], ?_, ?_, ?_, ?_⟩
  · change b₁.trace ++ _ = _
    rw [trace, List.append_assoc]
  · exact loop.then guarded_status fun status full _ => ⟨status, rfl, full⟩
  · rw [written_append, loop.written, written_inb, List.nil_append]
  · rw [readFrom_append, loop.readFrom (by decide), readFrom_inb, if_pos rfl, List.nil_append]

/-- The answers of the loop: none acknowledges before the last, and without one the count is used up. -/
structure Retried (count : Nat) (answers : List UInt8) (result : Int) : Prop where
  most : answers.length ≤ count
  early : ack ∉ answers.dropLast
  enabled : result = 0 ↔ answers.getLast? = some ack
  failed : result ≠ 0 → result = -1 ∧ answers.length = count

/-- An answer that does not acknowledge starts another round. -/
theorem Retried.cons {answers : List UInt8} (retried : Retried count answers result) {answer : UInt8}
    (other : answer ≠ ack) (some : answers = [] → result ≠ 0) : Retried (count + 1) (answer :: answers) result := by
  cases answers with
  | nil =>
      have bad := some rfl
      refine ⟨by simp, by simp, ?_, ?_⟩
      · constructor
        · exact fun good => absurd good bad
        · intro last
          exact absurd (Option.some.inj last) other
      · intro _
        obtain ⟨value, length⟩ := retried.failed bad
        exact ⟨value, by rw [List.length_cons, length]⟩
  | cons a rest =>
      refine ⟨?_, ?_, ?_, ?_⟩
      · have most := retried.most
        simp only [List.length_cons] at most ⊢
        omega
      · rw [List.dropLast_cons_cons, List.mem_cons, not_or]
        exact ⟨Ne.symm other, retried.early⟩
      · rw [retried.enabled, List.getLast?_cons_cons]
      · intro bad
        obtain ⟨value, length⟩ := retried.failed bad
        exact ⟨value, by rw [List.length_cons, length]⟩

theorem retry_part (done : retry P fuel count b = some (result, b')) : ∃ answers,
    Part b b' (List.replicate answers.length (keyboardDataPort, 0xF4)) answers ∧ Retried count answers result := by
  induction count generalizing b with
  | zero =>
      obtain ⟨rfl, rfl⟩ := Prod.mk.inj (Option.some.inj done)
      refine ⟨[], ⟨[], by simp, ⟨List.isChain_nil, by simp⟩, rfl, rfl⟩, ⟨le_refl _, by simp, by simp, fun _ => ?_⟩⟩
      exact ⟨rfl, rfl⟩
  | succ count ih =>
      obtain ⟨b₁, sending, done⟩ := Option.bind_eq_some_iff.mp done
      obtain ⟨⟨answer, b₂⟩, reading, done⟩ := Option.bind_eq_some_iff.mp done
      have first := (send_part sending).trans (receive_part reading)
      dsimp only at done
      split at done
      next good =>
          obtain ⟨rfl, rfl⟩ := Prod.mk.inj (Option.some.inj done)
          exact ⟨[answer], first, ⟨by simp, by simp, by simp [good], fun bad => absurd rfl bad⟩⟩
      next bad =>
          obtain ⟨answers, rest, retried⟩ := ih done
          refine ⟨answer :: answers, first.trans rest, retried.cons bad ?_⟩
          intro empty good
          have last := retried.enabled.mp good
          rw [empty] at last
          cases last

/-- Every finished call is a handshake. -/
theorem enableKeyboard_part (done : enableKeyboard P fuel b = some (result, b')) :
    ∃ added answers, b'.trace = b.trace ++ added ∧ Handshake added answers result := by
  obtain ⟨b₁, command, done⟩ := Option.bind_eq_some_iff.mp done
  obtain ⟨b₂, scan, done⟩ := Option.bind_eq_some_iff.mp done
  obtain ⟨⟨answer, b₃⟩, reading, done⟩ := Option.bind_eq_some_iff.mp done
  have first := ((send_part command).trans (send_part scan)).trans (receive_part reading)
  dsimp only at done
  split at done
  next good =>
      obtain ⟨rfl, rfl⟩ := Prod.mk.inj (Option.some.inj done)
      obtain ⟨added, trace, obeys, sent, got⟩ := first
      exact ⟨added, [answer], trace, ⟨obeys, sent, got, by simp, by simp, by simp, by simp, by simp [good],
        fun bad => absurd rfl bad⟩⟩
  next bad =>
      split at done
      next again =>
          obtain ⟨answers, rest, retried⟩ := retry_part done
          obtain ⟨added, trace, obeys, sent, got⟩ := first.trans rest
          have whole : Retried 4 (answer :: answers) result := by
            refine retried.cons bad ?_
            intro empty good
            have last := retried.enabled.mp good
            rw [empty] at last
            cases last
          refine ⟨added, answer :: answers, trace, ⟨obeys, sent, got, by simp, whole.most, ?_, whole.early, whole.enabled, ?_⟩⟩
          · intro _
            rw [again]
            rfl
          · intro failed
            exact ⟨(whole.failed failed).1, .inr (whole.failed failed).2⟩
      next other =>
          obtain ⟨rfl, rfl⟩ := Prod.mk.inj (Option.some.inj done)
          obtain ⟨added, trace, obeys, sent, got⟩ := first
          exact ⟨added, [answer], trace, ⟨obeys, sent, got, by simp, by simp, by simp, by simp, by simp [bad],
            fun _ => ⟨rfl, .inl rfl⟩⟩⟩

end Parts

section Returns

variable {P : Ports D} {b b' : Bus D} {fuel more count : Nat} {port : Nat} {byte : UInt8} {result : Int}

theorem send_mono (done : send P fuel port byte b = some b') (enough : fuel ≤ more) :
    send P more port byte b = some b' := by
  obtain ⟨b₁, polled, rfl⟩ := Option.map_eq_some_iff.mp done
  rw [send, poll_mono polled enough]
  rfl

theorem receive_mono {r : UInt8 × Bus D} (done : receive P fuel b = some r) (enough : fuel ≤ more) :
    receive P more b = some r := by
  obtain ⟨b₁, polled, rfl⟩ := Option.map_eq_some_iff.mp done
  rw [receive, poll_mono polled enough]
  rfl

theorem retry_mono (done : retry P fuel count b = some (result, b')) (enough : fuel ≤ more) :
    retry P more count b = some (result, b') := by
  induction count generalizing b with
  | zero => exact done
  | succ count ih =>
      obtain ⟨b₁, sending, done⟩ := Option.bind_eq_some_iff.mp done
      obtain ⟨r, reading, done⟩ := Option.bind_eq_some_iff.mp done
      rw [retry, send_mono sending enough, Option.bind_some, receive_mono reading enough, Option.bind_some]
      split at done
      next good => rwa [if_pos good]
      next bad =>
          rw [if_neg bad]
          exact ih done

/-- A command for the keyboard goes out and its answer comes in. -/
theorem Responsive.exchange (responsive : Responsive P) (b : Bus D) : ∃ fuel b₁ r,
    send P fuel keyboardDataPort 0xF4 b = some b₁ ∧ receive P fuel b₁ = some r := by
  obtain ⟨first, b₁, drained⟩ := (responsive.drained b.device).poll
  have full : Reads P keyboardStatusPort outputFull (b₁.outb P keyboardDataPort 0xF4).device :=
    responsive.answered b₁.device
  obtain ⟨second, b₂, answered⟩ := full.poll
  refine ⟨max first second, b₁.outb P keyboardDataPort 0xF4, b₂.inb P keyboardDataPort, ?_, ?_⟩
  · rw [send, poll_mono drained (Nat.le_max_left _ _)]
    rfl
  · rw [receive, poll_mono answered (Nat.le_max_right _ _)]
    rfl

theorem Responsive.retry (responsive : Responsive P) (count : Nat) (b : Bus D) :
    ∃ fuel result b', Keyboard.retry P fuel count b = some (result, b') := by
  induction count generalizing b with
  | zero => exact ⟨0, -1, b, rfl⟩
  | succ count ih =>
      obtain ⟨first, b₁, r, sending, reading⟩ := responsive.exchange b
      obtain ⟨second, result, b', rest⟩ := ih r.2
      have sent := send_mono sending (Nat.le_max_left first second)
      have got := receive_mono reading (Nat.le_max_left first second)
      refine ⟨max first second, ?_⟩
      rw [Keyboard.retry, sent, Option.bind_some, got, Option.bind_some]
      split
      next => exact ⟨0, r.2, rfl⟩
      next => exact ⟨result, b', retry_mono rest (Nat.le_max_right first second)⟩

/-- The call returns on every responsive controller. -/
theorem Responsive.enableKeyboard (responsive : Responsive P) (b : Bus D) :
    ∃ fuel result b', Keyboard.enableKeyboard P fuel b = some (result, b') := by
  obtain ⟨zeroth, b₀, drained⟩ := (responsive.drained b.device).poll
  obtain ⟨first, b₁, r, sending, reading⟩ := responsive.exchange (b₀.outb P keyboardStatusPort 0xD4)
  obtain ⟨second, result, b', rest⟩ := responsive.retry 3 r.2
  have command : send P zeroth keyboardStatusPort 0xD4 b = some (b₀.outb P keyboardStatusPort 0xD4) := by
    rw [send, drained]
    rfl
  refine ⟨max zeroth (max first second), ?_⟩
  rw [Keyboard.enableKeyboard, send_mono command (by omega), Option.bind_some, send_mono sending (by omega),
    Option.bind_some, tryEnableKeyboard, receive_mono reading (by omega), Option.bind_some]
  split
  next => exact ⟨0, r.2, rfl⟩
  next =>
      split
      next => exact ⟨result, b', retry_mono rest (by omega)⟩
      next => exact ⟨-1, r.2, rfl⟩

end Returns

/-- A call that returns is a handshake with the controller, and on a responsive controller it returns. -/
theorem enableKeyboard_handshake (P : Ports D) (b : Bus D) :
    (∀ fuel result b', enableKeyboard P fuel b = some (result, b') →
      ∃ added answers, b'.trace = b.trace ++ added ∧ Handshake added answers result) ∧
    (Responsive P → ∃ fuel result b', enableKeyboard P fuel b = some (result, b')) := by
  constructor
  · intro fuel result b' done
    exact enableKeyboard_part done
  · intro responsive
    exact responsive.enableKeyboard b

/-- A controller that is busy for two reads after each byte, and gives prepared answers. -/
def sampleController : Ports (Nat × List UInt8) where
  inb port d :=
    if port = keyboardStatusPort then (if 0 < d.1 then 0x02 else 0x01, d.1 - 1, d.2)
    else (d.2.headD ack, d.1, d.2.tail)
  outb _ _ d := (2, d.2)

theorem sampleController_reads (stop : UInt8 → Bool) (passed : stop 0x01 = true) (d : Nat × List UInt8) :
    Reads sampleController keyboardStatusPort stop d := by
  obtain ⟨busy, answers⟩ := d
  induction busy with
  | zero => exact .now passed
  | succ busy ih => exact .later ih

theorem enableKeyboard_handshake_sample : (∃ fuel b', enableKeyboard sampleController fuel
    ⟨(0, [resend, 0x00, ack]), []⟩ = some (0, b') ∧ Handshake b'.trace [resend, 0x00, ack] 0) ∧
    ∃ fuel result b', enableKeyboard sampleController fuel ⟨(1, [0x00]), []⟩ = some (result, b') := by
  constructor
  · have answer : (enableKeyboard sampleController 3 ⟨(0, [resend, 0x00, ack]), []⟩).map
        (fun r => (r.1, readFrom keyboardDataPort r.2.trace)) = some (0, [resend, 0x00, ack]) := by decide +kernel
    obtain ⟨⟨result, b'⟩, done, same⟩ := Option.map_eq_some_iff.mp answer
    obtain ⟨rfl, replies⟩ := Prod.mk.inj same
    obtain ⟨added, answers, trace, handshake⟩ :=
      (enableKeyboard_handshake sampleController ⟨(0, [resend, 0x00, ack]), []⟩).1 3 0 b' done
    rw [List.nil_append] at trace
    rw [trace, handshake.replies] at replies
    rw [replies, ← trace] at handshake
    exact ⟨3, b', done, handshake⟩
  · refine (enableKeyboard_handshake sampleController ⟨(1, [0x00]), []⟩).2 ⟨?_, ?_⟩
    · exact sampleController_reads inputEmpty rfl
    · exact fun _ => sampleController_reads outputFull rfl _

end OsKernel.Keyboard
