import Elua.Buf.CharBuffer
import Elua.Foundation.TransitionSystem

/-!
# Interrupts between the steps of a buffered read

A buffer is written from interrupt context and read from the foreground. `bufSystem` interleaves
the two: a `write` event is one whole `buf_write`, `read` calls `buf_read`, and every `resume` is
the next individual step of the call, namely the test for an empty buffer, the copy of one byte,
the count update with interrupts disabled, and the update of the read pointer with the return. The
state keeps the elements whose write returned `PLATFORM_OK` and the elements that reads returned.

`LossFree` is the first-in first-out property, `WriteContract` what a full buffer must do with a
write. `ReaderAt` is the invariant: it says, for every position of the reader, which slots hold the
elements not yet delivered. It survives every step as long as no write meets a full buffer
(`invariant_step`), which gives `lossFree_of_writesFindRoom`. The full test of `buf_write` compares
with the wrong bound, and `write_to_full_buffer_loses_elements` is the run in which it matters.
-/

set_option autoImplicit false
set_option relaxedAutoImplicit false

namespace Elua.Buf

open Foundation TransitionSystem

/-! ### The interleaved system -/

/-- Where the foreground stands in `buf_read`: outside it, before the test for an empty buffer,
copying from a source offset with some bytes copied, or between the count update and the pointer
update. -/
inductive Reader
  | idle
  | entered (source : ℕ)
  | copying (source : ℕ) (copied : List UInt8)
  | counted (copied : List UInt8)
  deriving DecidableEq, Repr

/-- A buffer, its reader, and the elements accepted and delivered so far. -/
structure BufSystem where
  desc : BufDesc
  reader : Reader
  accepted : List (List UInt8)
  delivered : List (List UInt8)
  deriving DecidableEq, Repr

/-- One atomic event: an interrupt that writes an element, a call of `buf_read`, or the next step of
the call in progress. -/
inductive BufEvent
  | write (data : List UInt8)
  | read
  | resume
  deriving DecidableEq, Repr

/-- An interrupt writes one element. -/
def interruptWrite (state : BufSystem) (data : List UInt8) : BufSystem :=
  let result := bufWrite state.desc data
  { state with
    desc := result.2
    accepted := if result.1 = .ok then state.accepted ++ [data] else state.accepted }

/-- The next individual step of `buf_read`. A read of a byte outside the buffer has no result. -/
def resumeRead (state : BufSystem) : Option BufSystem :=
  match state.reader with
  | .idle => none
  | .entered source =>
    if bufReadUnderflows state.desc then some { state with reader := .idle }
    else some { state with reader := .copying source [] }
  | .copying source copied =>
    if copied.length < duffDevice8 (bufRealdsize state.desc) then
      state.desc.buf[source + copied.length]?.map fun byte ↦
        { state with reader := .copying source (copied ++ [byte]) }
    else some { state with desc := bufReadDecrement state.desc, reader := .counted copied }
  | .counted copied =>
    some { state with
      desc := bufReadAdvance state.desc
      reader := .idle
      delivered := state.delivered ++ [copied] }

/-- One event of the interleaved system. The interrupt handler passes whole elements, and the
foreground calls `buf_read` only when it is not already inside it. -/
def bufStep (state : BufSystem) : BufEvent → Option BufSystem
  | .write data =>
    if data.length = bufRealdsize state.desc then some (interruptWrite state data) else none
  | .read => if state.reader = .idle then
      some { state with reader := .entered state.desc.rptr } else none
  | .resume => resumeRead state

/-- A buffer freshly enabled by `buf_set`, with nothing written and nobody reading. -/
def Fresh (logsize logdsize : ℕ) (state : BufSystem) : Prop :=
  ∃ memory : List UInt8, memory.length = 2 ^ (logsize + logdsize) ∧
    state = ⟨(bufSet .zero logsize logdsize (some memory)).2, .idle, [], []⟩

/-- The buffer of a size and an element size, with a reader and an interrupt source. -/
def bufSystem (logsize logdsize : ℕ) : TransitionSystem BufSystem BufEvent :=
  ofFunction (Fresh logsize logdsize) bufStep

/-! ### What the buffer is for -/

/-- The accepted elements that no read has returned yet, oldest first: the one the reader carries
out, if the count no longer includes it, and those in the ring. -/
def pendingElements (state : BufSystem) : List (List UInt8) :=
  let oldest := state.desc.rptr / bufRealdsize state.desc
  match state.reader with
  | .counted copied => copied :: queued state.desc (oldest + 1)
  | _ => queued state.desc oldest

/-- The buffer has lost, duplicated and reordered nothing, and does not exceed its capacity. -/
structure LossFree (state : BufSystem) : Prop where
  accepted_eq : state.accepted = state.delivered ++ pendingElements state
  count_le : state.desc.count ≤ bufRealsize state.desc

/-- A write is refused exactly when the buffer is full, and a refused write changes nothing. -/
def WriteContract (desc : BufDesc) : Prop :=
  ∀ data : List UInt8, data.length = bufRealdsize desc →
    ((bufWrite desc data).1 = .err ↔ desc.count = bufRealsize desc) ∧
      ((bufWrite desc data).1 = .err → (bufWrite desc data).2 = desc)

/-- A write comes only while the buffer is not full. -/
def WritesFindRoom (state : BufSystem) (event : BufEvent) : Prop :=
  ∀ data, event = .write data → state.desc.count < bufRealsize state.desc

/-! ### The invariant -/

/-- `ReaderAt desc start reader pending`: with its read pointer at slot `start` and the reader at
the given position, the buffer still owes the elements `pending`. -/
inductive ReaderAt (desc : BufDesc) (start : ℕ) : Reader → List (List UInt8) → Prop
  | idle (hring : RingAt desc start) : ReaderAt desc start .idle (queued desc start)
  | entered (hring : RingAt desc start) :
      ReaderAt desc start (.entered desc.rptr) (queued desc start)
  | copying (copied : List UInt8) (hring : RingAt desc start) (hcount : 0 < desc.count)
      (hcopied : copied <+: slot desc start) :
      ReaderAt desc start (.copying desc.rptr copied) (queued desc start)
  | counted (element : List UInt8) (hring : RingAt desc (start + 1)) :
      ReaderAt desc start (.counted element) (element :: queued desc (start + 1))

/-- The invariant of the interleaved system: the read pointer stands at a slot, and the elements
accepted are those delivered followed by those the buffer still owes. -/
def Invariant (state : BufSystem) : Prop :=
  ∃ start pending, start < bufRealsize state.desc ∧
    state.desc.rptr = start * bufRealdsize state.desc ∧
    ReaderAt state.desc start state.reader pending ∧ state.accepted = state.delivered ++ pending

/-- Wherever the reader stands, the buffer is a ring. -/
theorem ReaderAt.exists_ringAt {desc : BufDesc} {start : ℕ} {reader : Reader}
    {pending : List (List UInt8)} (hreader : ReaderAt desc start reader pending) :
    ∃ first, RingAt desc first := by
  cases hreader with
  | idle hring => exact ⟨start, hring⟩
  | entered hring => exact ⟨start, hring⟩
  | copying copied hring => exact ⟨start, hring⟩
  | counted element hring => exact ⟨start + 1, hring⟩

/-- A write that finds room appends its element to what the buffer owes, wherever the reader
stands. -/
theorem ReaderAt.written {desc : BufDesc} {start : ℕ} {reader : Reader}
    {pending : List (List UInt8)} (hreader : ReaderAt desc start reader pending)
    (hstart : start < bufRealsize desc) (hroom : desc.count < bufRealsize desc)
    {data : List UInt8} (hdata : data.length = bufRealdsize desc) :
    ReaderAt (written desc data) start reader (pending ++ [data]) := by
  cases hreader with
  | idle hring =>
    rw [← queued_bufWrite hring hroom hdata]
    exact .idle (bufWrite_ringAt hring hroom data)
  | entered hring =>
    rw [← queued_bufWrite hring hroom hdata]
    exact .entered (bufWrite_ringAt hring hroom data)
  | copying copied hring hcount hcopied =>
    -- the slot being copied is the oldest of a ring with room, not the one being written
    have hslot : slot (Buf.written desc data) start = slot desc start := by
      rw [slot_written hring hdata, if_neg]
      have hother := ringSlot_ne start hcount hroom
      rwa [Nat.add_zero, Nat.mod_eq_of_lt hstart] at hother
    rw [← queued_bufWrite hring hroom hdata]
    refine .copying copied (bufWrite_ringAt hring hroom data) ?_ (hslot ▸ hcopied)
    rw [written_count hring hroom]
    exact Nat.succ_pos _
  | counted element hring =>
    rw [List.cons_append, ← queued_bufWrite hring hroom hdata]
    exact .counted element (bufWrite_ringAt hring hroom data)

/-- A fresh buffer satisfies the invariant. -/
theorem invariant_fresh {logsize logdsize : ℕ} (henabled : 0 < logsize + logdsize)
    (hsize : logsize + logdsize ≤ 15) {state : BufSystem} (hfresh : Fresh logsize logdsize state) :
    Invariant state := by
  obtain ⟨memory, hmemory, rfl⟩ := hfresh
  exact ⟨0, [], bufRealsize_pos _, (Nat.zero_mul _).symm,
    .idle (bufSet_ringAt henabled hsize hmemory), rfl⟩

/-- A write that finds room keeps the invariant. -/
theorem invariant_interruptWrite {state : BufSystem} (hinvariant : Invariant state)
    (hroom : state.desc.count < bufRealsize state.desc) {data : List UInt8}
    (hdata : data.length = bufRealdsize state.desc) : Invariant (interruptWrite state data) := by
  obtain ⟨start, pending, hstart, hrptr, hreader, haccepted⟩ := hinvariant
  obtain ⟨first, hring⟩ := hreader.exists_ringAt
  rw [interruptWrite, bufWrite_eq hring hdata]
  refine ⟨start, pending ++ [data], hstart, hrptr, hreader.written hstart hroom hdata, ?_⟩
  rw [if_pos rfl, haccepted, List.append_assoc]

/-- Copying the next byte of the oldest slot extends the copy to a longer prefix of it. -/
theorem prefix_append_byte {desc : BufDesc} {start : ℕ} {copied : List UInt8} {byte : UInt8}
    (hcopied : copied <+: slot desc start) (hlength : copied.length < bufRealdsize desc)
    (hbyte : desc.buf[start * bufRealdsize desc + copied.length]? = some byte) :
    copied ++ [byte] <+: slot desc start := by
  obtain ⟨rest, hrest⟩ := hcopied
  have hnext : (slot desc start)[copied.length]? = some byte := by
    rw [slot, getElem?_segment, if_pos hlength, hbyte]
  rw [← hrest, List.getElem?_append_right le_rfl, Nat.sub_self] at hnext
  cases rest with
  | nil => simp at hnext
  | cons head rest =>
    obtain rfl : head = byte := by simpa using hnext
    exact ⟨rest, by rw [← hrest, List.append_assoc, List.singleton_append]⟩

/-- Every step of `buf_read` keeps the invariant. -/
theorem invariant_resumeRead {state after : BufSystem} (hinvariant : Invariant state)
    (hstep : resumeRead state = some after) : Invariant after := by
  obtain ⟨desc, reader, accepted, delivered⟩ := state
  obtain ⟨start, pending, hstart, hrptr, hreader, haccepted⟩ := hinvariant
  simp only at hstart hrptr hreader haccepted
  cases hreader with
  | idle hring => simp [resumeRead] at hstep
  | entered hring =>
    simp only [resumeRead] at hstep
    split_ifs at hstep with hempty
    · obtain rfl := Option.some.inj hstep
      exact ⟨start, _, hstart, hrptr, .idle hring, haccepted⟩
    · obtain rfl := Option.some.inj hstep
      have hcount : 0 < desc.count := by
        simp only [bufReadUnderflows, Bool.or_eq_true, beq_iff_eq, not_or] at hempty
        exact Nat.pos_of_ne_zero hempty.2
      exact ⟨start, _, hstart, hrptr, .copying [] hring hcount (List.nil_prefix), haccepted⟩
  | copying copied hring hcount hcopied =>
    simp only [resumeRead, duffDevice8_of_pos (bufRealdsize_pos desc)] at hstep
    split_ifs at hstep with hmore
    · -- one more byte of the oldest slot
      simp only [Option.map_eq_some_iff] at hstep
      obtain ⟨byte, hbyte, rfl⟩ := hstep
      rw [hrptr] at hbyte
      exact ⟨start, _, hstart, hrptr, .copying _ hring hcount
        (prefix_append_byte hcopied hmore hbyte), haccepted⟩
    · -- the copy is the whole slot: the element leaves the ring
      obtain rfl := Option.some.inj hstep
      have helement : copied = slot desc start :=
        hcopied.eq_of_length_le (by rw [hring.length_slot hstart]; exact not_lt.mp hmore)
      refine ⟨start, _, hstart, hrptr, .counted copied (bufReadDecrement_ringAt hring hcount), ?_⟩
      rw [haccepted, queued_eq_cons start hcount, Nat.mod_eq_of_lt hstart, helement]
  | counted element hring =>
    simp only [resumeRead] at hstep
    obtain rfl := Option.some.inj hstep
    refine ⟨(start + 1) % bufRealsize desc, queued desc (start + 1),
      Nat.mod_lt _ (bufRealsize_pos desc), ?_, ?_,
      by rw [haccepted, List.append_assoc, List.singleton_append]⟩
    · change bufModIncr desc desc.rptr = (start + 1) % bufRealsize desc * bufRealdsize desc
      rw [hrptr, ← hring.modIncr_eq, Nat.mod_eq_of_lt hstart]
    · rw [← queued_mod, ← queued_bufReadAdvance]
      exact .idle (bufReadAdvance_ringAt hring).mod

/-- Every event keeps the invariant, as long as no write meets a full buffer. -/
theorem invariant_step {state after : BufSystem} {event : BufEvent}
    (hinvariant : Invariant state) (hroom : WritesFindRoom state event)
    (hstep : bufStep state event = some after) : Invariant after := by
  cases event with
  | write data =>
    simp only [bufStep] at hstep
    split_ifs at hstep with hdata
    obtain rfl := Option.some.inj hstep
    exact invariant_interruptWrite hinvariant (hroom data rfl) hdata
  | read =>
    simp only [bufStep] at hstep
    split_ifs at hstep with hidle
    obtain rfl := Option.some.inj hstep
    obtain ⟨start, pending, hstart, hrptr, hreader, haccepted⟩ := hinvariant
    rw [hidle] at hreader
    cases hreader with
    | idle hring => exact ⟨start, _, hstart, hrptr, .entered hring, haccepted⟩
  | resume => exact invariant_resumeRead hinvariant hstep

/-- The invariant holds in every state reached by a run whose writes all find room. -/
theorem invariant_of_reachableUnder {logsize logdsize : ℕ} (henabled : 0 < logsize + logdsize)
    (hsize : logsize + logdsize ≤ 15) {state : BufSystem}
    (hreach : (bufSystem logsize logdsize).ReachableUnder WritesFindRoom state) :
    Invariant state :=
  hreach.invariant Invariant (fun _ hfresh ↦ invariant_fresh henabled hsize hfresh)
    fun _ _ _ hinvariant hroom hstep ↦ invariant_step hinvariant hroom hstep

/-! ### Consequences -/

/-- What the buffer owes in a state of the invariant is what its pointers and its reader show. -/
theorem ReaderAt.pending_eq {state : BufSystem} {start : ℕ} {pending : List (List UInt8)}
    (hreader : ReaderAt state.desc start state.reader pending)
    (hrptr : state.desc.rptr = start * bufRealdsize state.desc) :
    pendingElements state = pending := by
  have holdest : state.desc.rptr / bufRealdsize state.desc = start := by
    rw [hrptr, Nat.mul_div_cancel _ (bufRealdsize_pos _)]
  obtain ⟨desc, reader, accepted, delivered⟩ := state
  change ReaderAt desc start reader pending at hreader
  cases hreader <;> simp only [pendingElements, holdest]

/-- The invariant implies that nothing is lost. -/
theorem Invariant.lossFree {state : BufSystem} (hinvariant : Invariant state) :
    LossFree state := by
  obtain ⟨start, pending, -, hrptr, hreader, haccepted⟩ := hinvariant
  obtain ⟨first, hring⟩ := hreader.exists_ringAt
  exact ⟨by rw [hreader.pending_eq hrptr, haccepted], hring.count_le⟩

/-- In a state of the invariant the code treats a write as it must exactly when the buffer is not
full. -/
theorem Invariant.writeContract_iff {state : BufSystem} (hinvariant : Invariant state) :
    WriteContract state.desc ↔ state.desc.count < bufRealsize state.desc := by
  obtain ⟨start, pending, -, -, hreader, -⟩ := hinvariant
  obtain ⟨first, hring⟩ := hreader.exists_ringAt
  constructor
  · intro hcontract
    refine lt_of_le_of_ne hring.count_le fun hfull ↦ ?_
    have hdata : (List.replicate (bufRealdsize state.desc) (0 : UInt8)).length =
        bufRealdsize state.desc := List.length_replicate
    have hrefused := (hcontract _ hdata).1.mpr hfull
    rw [bufWrite_eq hring hdata] at hrefused
    simp at hrefused
  · intro hroom data hdata
    rw [bufWrite_eq hring hdata]
    exact ⟨by simp [hroom.ne], by simp⟩

/-- In every run whose writes all find room, the elements delivered are exactly those accepted, in
order, the count stays within the capacity, and the code answers a write as it must exactly in
the states with room. -/
theorem lossFree_of_writesFindRoom (logsize logdsize : ℕ) (henabled : 0 < logsize + logdsize)
    (hsize : logsize + logdsize ≤ 15) (state : BufSystem)
    (hreach : (bufSystem logsize logdsize).ReachableUnder WritesFindRoom state) :
    LossFree state ∧
      (WriteContract state.desc ↔ state.desc.count < bufRealsize state.desc) :=
  have hinvariant := invariant_of_reachableUnder henabled hsize hreach
  ⟨hinvariant.lossFree, hinvariant.writeContract_iff⟩

/-- The guarantee applied to the smallest buffer with one element written into it. -/
theorem lossFree_of_one_write :
    LossFree ⟨⟨1, 0, 1, 0, 1, [7, 0]⟩, .idle, [[7]], []⟩ ∧
      (WriteContract ⟨1, 0, 1, 0, 1, [7, 0]⟩ ↔ 1 < 2) :=
  lossFree_of_writesFindRoom 1 0 (by decide) (by decide)
    ⟨⟨1, 0, 1, 0, 1, [7, 0]⟩, .idle, [[7]], []⟩
    (.next (.start ⟨[0, 0], rfl, rfl⟩) (fun _ _ ↦ by decide)
      (show (bufSystem 1 0).step _ (.write [7]) _ from rfl))

/-- A buffer of two one-byte elements accepts a third write. Its count then exceeds its capacity,
and the next read returns the third element although the first was never delivered. -/
theorem write_to_full_buffer_loses_elements :
    (∃ state, (bufSystem 1 0).Reachable state ∧ state.accepted = [[1], [2], [3]] ∧
      bufRealsize state.desc < state.desc.count) ∧
    ∃ state, (bufSystem 1 0).Reachable state ∧ state.accepted = [[1], [2], [3]] ∧
      state.delivered = [[3]] ∧ ¬ LossFree state := by
  have hstart : (bufSystem 1 0).Reachable
      ⟨(bufSet .zero 1 0 (some [0, 0])).2, .idle, [], []⟩ := .start ⟨[0, 0], rfl, rfl⟩
  constructor
  · exact ⟨_, reachableUnder_of_runEvents (fun _ _ _ ↦ id) [.write [1], .write [2], .write [3]]
      hstart (fun _ _ _ ↦ trivial) rfl, rfl, by decide⟩
  · refine ⟨_, reachableUnder_of_runEvents (fun _ _ _ ↦ id) [.write [1], .write [2], .write [3],
      .read, .resume, .resume, .resume, .resume] hstart (fun _ _ _ ↦ trivial) rfl, rfl, rfl,
      fun hfree ↦ ?_⟩
    exact absurd hfree.accepted_eq (by decide)

end Elua.Buf
