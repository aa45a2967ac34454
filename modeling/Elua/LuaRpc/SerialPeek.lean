import Elua.Foundation.TransitionSystem
import Mathlib.Data.Int.Notation
import Mathlib.Data.List.Basic

/-!
# Polling the serial line of the RPC link

`transport_readable` can ask the UART for a byte only by taking it. It keeps the byte in
`adispatch_buff`, from which the next `transport_read_buffer` takes it first. The byte is kept only
if it is greater than zero, so a zero is gone.

A `SerialLine` is the state of one connection together with what was received and what reads have
returned, and `serialStep` interleaves bytes that arrive with polls and the passes of reads.
`nothingLost_iff` says which runs lose nothing. -/

set_option autoImplicit false
set_option relaxedAutoImplicit false

namespace Elua.LuaRpc

open Foundation TransitionSystem

/-! ### The line -/

/-- A connection: the bytes that the UART has received so far and those it still holds,
`adispatch_buff` (`none` for `-1`), the length and the buffer of a read in progress, and the bytes
that reads have returned. -/
structure SerialLine where
  received : List UInt8
  queue : List UInt8
  adispatchBuff : Option UInt8
  reading : Option (ℤ × List UInt8)
  returned : List UInt8
  deriving DecidableEq, Repr

/-- A connection that was just opened. -/
def SerialLine.opened : SerialLine := ⟨[], [], none, none, []⟩

/-- `transport_get_char`: a byte of the UART, `none` for `-1` when there is none. -/
def transportGetChar (line : SerialLine) : Option UInt8 × SerialLine :=
  match line.queue with
  | [] => (none, line)
  | c :: queue => (some c, { line with queue := queue })

/-- `transport_readable`. -/
def transportReadable (line : SerialLine) : Bool × SerialLine :=
  match line.adispatchBuff with
  | some _ => (true, line)
  | none =>
    match transportGetChar line with
    | (none, line) => (false, line)
    | (some c, line) =>
      if c > 0 then (true, { line with adispatchBuff := some c }) else (false, line)

/-- One pass of the loop of `transport_read_buffer`, or its return. Without a byte the pass waits,
and has no result yet. -/
def transportReadPass (line : SerialLine) (length : ℤ) (buffer : List UInt8) : Option SerialLine :=
  if buffer.length < length then
    match line.adispatchBuff with
    | some c => some { line with adispatchBuff := none, reading := some (length, buffer ++ [c]) }
    | none =>
      match transportGetChar line with
      | (none, _) => none
      | (some c, line) => some { line with reading := some (length, buffer ++ [c]) }
  else some { line with reading := none, returned := line.returned ++ buffer }

/-- A wait for a byte ends with an exception, and the read does not return. Only the wait for the
first byte of a read has no time limit. -/
def transportReadTimeout (line : SerialLine) (length : ℤ) (buffer : List UInt8) :
    Option SerialLine :=
  if buffer.length < length ∧ buffer ≠ [] ∧ line.adispatchBuff = none ∧ line.queue = [] then
    some { line with reading := none }
  else none

/-- What can happen on a connection: a byte arrives, `transport_readable` or
`transport_read_buffer` is called, the read in progress makes its next pass, or its wait times
out. -/
inductive SerialEvent
  | receive (c : UInt8)
  | poll
  | read (length : ℤ)
  | pass
  | timeout
  deriving DecidableEq, Repr

/-- One event of a connection. No call is made while a read is in progress. -/
def serialStep (line : SerialLine) : SerialEvent → Option SerialLine
  | .receive c =>
    some { line with received := line.received ++ [c], queue := line.queue ++ [c] }
  | .poll => if line.reading = none then some (transportReadable line).2 else none
  | .read length => if line.reading = none then some { line with reading := some (length, []) }
    else none
  | .pass => line.reading.bind fun (length, buffer) ↦ transportReadPass line length buffer
  | .timeout => line.reading.bind fun (length, buffer) ↦ transportReadTimeout line length buffer

/-! ### Nothing is lost -/

/-- The bytes of a connection in the order in which they came: those that were returned, those of
the read in progress, the byte that is kept, and those of the UART. -/
def SerialLine.content (line : SerialLine) : List UInt8 :=
  line.returned ++ (line.reading.elim [] (·.2) ++ (line.adispatchBuff.toList ++ line.queue))

/-- The bytes that reads return are those that were received, in order, and what was not returned is
still there. -/
def NothingLost (line : SerialLine) : Prop := line.content = line.received

/-- A poll that takes a byte takes no zero, and no read times out. -/
def Harmless (line : SerialLine) : SerialEvent → Prop
  | .poll => line.adispatchBuff = none → line.queue.head? ≠ some 0
  | .timeout => False
  | _ => True

section Runs

variable {line after : SerialLine} {event : SerialEvent}

/-- A byte of the line is missing for good. -/
def SerialLine.Short (line : SerialLine) : Prop := line.content.length < line.received.length

/-- A poll keeps all bytes, or takes a zero away. -/
theorem content_transportReadable (line : SerialLine) :
    (transportReadable line).2.received = line.received ∧
      if line.adispatchBuff = none ∧ line.queue.head? = some 0 then
        (transportReadable line).2.content.length < line.content.length
      else (transportReadable line).2.content = line.content := by
  unfold transportReadable
  cases hheld : line.adispatchBuff with
  | some c => simp
  | none =>
    cases hqueue : line.queue with
    | nil => simp [transportGetChar, hqueue]
    | cons c queue =>
      rcases eq_or_ne c 0 with rfl | hc
      · simp [transportGetChar, hqueue, SerialLine.content, hheld]
      · have hpos : c > 0 := UInt8.pos_iff_ne_zero.2 hc
        simp [transportGetChar, hqueue, SerialLine.content, hheld, hpos, hc]

/-- A pass of a read keeps all bytes. -/
theorem content_transportReadPass {length : ℤ} {buffer : List UInt8}
    (hreading : line.reading = some (length, buffer))
    (hpass : transportReadPass line length buffer = some after) :
    after.content = line.content ∧ after.received = line.received := by
  unfold transportReadPass at hpass
  split_ifs at hpass with hmore
  · cases hheld : line.adispatchBuff with
    | some c =>
      rw [hheld] at hpass
      obtain rfl := Option.some.inj hpass
      simp [SerialLine.content, hreading, hheld]
    | none =>
      cases hqueue : line.queue with
      | nil => simp [hheld, transportGetChar, hqueue] at hpass
      | cons c queue =>
        simp only [hheld, transportGetChar, hqueue, Option.some.injEq] at hpass
        subst hpass
        simp [SerialLine.content, hreading, hheld, hqueue]
  · obtain rfl := Option.some.inj hpass
    simp [SerialLine.content, hreading]

/-- A read that times out drops what it has taken. -/
theorem content_transportReadTimeout {length : ℤ} {buffer : List UInt8}
    (hreading : line.reading = some (length, buffer))
    (htimeout : transportReadTimeout line length buffer = some after) :
    after.content.length < line.content.length ∧ after.received = line.received := by
  unfold transportReadTimeout at htimeout
  split_ifs at htimeout with hwaits
  obtain rfl := Option.some.inj htimeout
  have hbuffer := List.length_pos_iff.2 hwaits.2.1
  simp only [SerialLine.content, hreading, Option.elim_none, Option.elim_some, List.length_append,
    List.length_nil, and_true]
  omega

/-- An event adds what arrives to the bytes of the line if it is harmless, and otherwise takes bytes
away. -/
theorem serialStep_cases (hstep : serialStep line event = some after) :
    (Harmless line event ∧ ∃ arrived, after.content = line.content ++ arrived ∧
        after.received = line.received ++ arrived) ∨
      ¬Harmless line event ∧ after.content.length < line.content.length ∧
        after.received = line.received := by
  cases event with
  | receive c =>
    obtain rfl := Option.some.inj hstep
    exact .inl ⟨trivial, [c], by simp [SerialLine.content], rfl⟩
  | poll =>
    simp only [serialStep] at hstep
    split_ifs at hstep with hidle
    obtain rfl := Option.some.inj hstep
    obtain ⟨hreceived, hcontent⟩ := content_transportReadable line
    split_ifs at hcontent with hzero
    · exact .inr ⟨fun hharmless ↦ hharmless hzero.1 hzero.2, hcontent, hreceived⟩
    · refine .inl ⟨fun hheld hhead ↦ hzero ⟨hheld, hhead⟩, [], ?_, ?_⟩
      · rw [hcontent, List.append_nil]
      · rw [hreceived, List.append_nil]
  | read length =>
    simp only [serialStep] at hstep
    split_ifs at hstep with hidle
    obtain rfl := Option.some.inj hstep
    exact .inl ⟨trivial, [], by simp [SerialLine.content, hidle], by simp⟩
  | pass =>
    obtain ⟨⟨length, buffer⟩, hreading, hpass⟩ := Option.bind_eq_some_iff.1 hstep
    obtain ⟨hcontent, hreceived⟩ := content_transportReadPass hreading hpass
    exact .inl ⟨trivial, [], by rw [hcontent, List.append_nil], by rw [hreceived, List.append_nil]⟩
  | timeout =>
    obtain ⟨⟨length, buffer⟩, hreading, htimeout⟩ := Option.bind_eq_some_iff.1 hstep
    exact .inr ⟨id, content_transportReadTimeout hreading htimeout⟩

/-- What is missing stays missing. -/
theorem short_of_run (events : List SerialEvent) (hshort : line.Short)
    (hrun : runEvents serialStep line events = some after) : after.Short := by
  induction events generalizing line with
  | nil => exact Option.some.inj hrun ▸ hshort
  | cons event events ih =>
    obtain ⟨next, hstep, hrest⟩ := Option.bind_eq_some_iff.1 hrun
    refine ih ?_ hrest
    unfold SerialLine.Short at hshort ⊢
    rcases serialStep_cases hstep with ⟨-, arrived, hcontent, hreceived⟩ | ⟨-, hless, hreceived⟩
    · rw [hcontent, hreceived, List.length_append, List.length_append]
      omega
    · rw [hreceived]
      omega

/-- From a line on which nothing is lost, a run loses nothing exactly if its events are harmless. -/
theorem nothingLost_run (events : List SerialEvent) (hline : NothingLost line)
    (hrun : runEvents serialStep line events = some after) :
    NothingLost after ↔ PermitsEvents serialStep Harmless line events := by
  induction events generalizing line with
  | nil => exact iff_of_true (Option.some.inj hrun ▸ hline) trivial
  | cons event events ih =>
    obtain ⟨next, hstep, hrest⟩ := Option.bind_eq_some_iff.1 hrun
    rcases serialStep_cases hstep with
      ⟨hharmless, arrived, hcontent, hreceived⟩ | ⟨hharm, hless, hreceived⟩
    · have hnext : NothingLost next := by
        rw [NothingLost, hcontent, hreceived, hline]
      rw [ih hnext hrest]
      constructor
      · intro hpermits
        refine ⟨hharmless, fun other hother ↦ ?_⟩
        obtain rfl : next = other := Option.some.inj (hstep.symm.trans hother)
        exact hpermits
      · exact fun hpermits ↦ hpermits.2 next hstep
    · have hshort : next.Short := by
        rw [SerialLine.Short, hreceived, ← hline]
        exact hless
      refine iff_of_false ?_ fun hpermits ↦ hharm hpermits.1
      intro hafter
      exact Nat.ne_of_lt (short_of_run events hshort hrest) (congrArg List.length hafter)

end Runs

/-- A run of a connection loses nothing exactly if no poll takes a zero and no read times out. -/
theorem nothingLost_iff (events : List SerialEvent) {line : SerialLine}
    (hrun : runEvents serialStep .opened events = some line) :
    NothingLost line ↔ PermitsEvents serialStep Harmless .opened events :=
  nothingLost_run events rfl hrun

/-- A poll and a read of the byte that it keeps. -/
theorem nothingLost_kept :
    NothingLost ⟨[7], [], none, none, [7]⟩ ↔
      PermitsEvents serialStep Harmless .opened [.receive 7, .poll, .read 1, .pass, .pass] :=
  nothingLost_iff _ (by decide)

/-- A poll takes the zero, and the read returns the byte behind it. -/
theorem not_nothingLost_zero :
    ∃ line, runEvents serialStep .opened
        [.receive 0, .receive 7, .poll, .read 1, .pass, .pass] = some line ∧
      line.received = [0, 7] ∧ line.returned = [7] ∧ line.queue = [] ∧ line.adispatchBuff = none ∧
        ¬NothingLost line :=
  ⟨⟨[0, 7], [], none, none, [7]⟩, by decide, rfl, rfl, rfl, rfl, by
    simp [NothingLost, SerialLine.content]⟩

end Elua.LuaRpc
