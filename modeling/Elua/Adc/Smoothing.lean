import Elua.Foundation.SlidingRing
import Elua.Foundation.TransitionSystem
import Mathlib.Tactic.Common

/-!
# The moving average of an ADC channel

`adc_smooth_data` puts a raw sample into a ring of `2 ^ logsmoothlen` samples and keeps their sum by
subtracting the value that it replaces. `adc_update_smoothing` gives the ring another size, which
may fail, and clears it. The state of a channel is followed together with the raw samples that have
been put into the ring since it was cleared last.

In every run that smooths only while smoothing is on, the ring holds the last samples behind zeros
(`Tracks`). So the sum is that of the ring and never leaves its type, every access is inside of the
ring, the ring is ready from the first sample on that it has no more room for, and a sample that is
read from then on is the mean of the last ones rounded down (`smoothing_exact`). -/

set_option autoImplicit false
set_option relaxedAutoImplicit false

namespace Elua.Adc

open Foundation TransitionSystem

/-! ### The code -/

/-- `elua_adc_ch_state`, with the value that `value_ptr` points to and the samples in the buffer of
the channel. -/
structure ChState where
  opPending : Bool
  smoothReady : Bool
  valueFresh : Bool
  logsmoothlen : UInt8
  smoothidx : UInt16
  smoothsum : UInt32
  smoothbuf : Option (List UInt16)
  reqsamples : UInt16
  value : UInt16
  buffer : List UInt16
  deriving DecidableEq

/-- `SMOOTH_REALSIZE`. -/
def ChState.smoothRealsize (s : ChState) : ℕ := 1 <<< s.logsmoothlen.toNat

/-- How often `DUFF_DEVICE_8` does its action: the first round begins at a case, the others have
eight actions each. -/
def duffActions (count : ℕ) : ℕ :=
  (if count &&& 7 = 0 then 8 else count &&& 7) + 8 * (((count + 7) >>> 3) - 1)

/-- `s->smoothbuf[ i ++ ] = 0`, a number of times. There is no result behind the end of the ring. -/
def storeZeros : (times : ℕ) → (i : ℕ) → List UInt16 → Option (List UInt16)
  | 0, _, ring => some ring
  | times + 1, i, ring => if i < ring.length then storeZeros times (i + 1) (ring.set i 0) else none

/-- `adc_flush_smoothing`. -/
def adcFlushSmoothing (s : ChState) : Option ChState :=
  let s := { s with smoothidx := 0, smoothsum := 0, smoothReady := false }
  if 0 < s.logsmoothlen then
    s.smoothbuf.bind fun ring ↦
      (storeZeros (duffActions s.smoothRealsize) 0 ring).map fun ring ↦
        { s with smoothbuf := some ring }
  else some s

/-- `buf_flush`, in a build with buffers. -/
def bufFlush (bufEnable : Bool) (s : ChState) : ChState :=
  if bufEnable then { s with buffer := [] } else s

/-- `adc_update_smoothing`, with what `realloc` answers: whether it returns `PLATFORM_OK`, and the
state of the channel. -/
def adcUpdateSmoothing (bufEnable : Bool) (loglen : UInt8) (memory : Option (List UInt16))
    (s : ChState) : Option (Bool × ChState) :=
  let s := if s.opPending then { s with opPending := false } else s
  if loglen ≠ s.logsmoothlen then
    match memory with
    | none =>
      let s := { s with
        smoothbuf := none, logsmoothlen := 0, smoothidx := 0, smoothReady := false, smoothsum := 0 }
      if loglen ≠ 0 then some (false, s)
      else (adcFlushSmoothing s).map fun s ↦ (true, bufFlush bufEnable s)
    | some ring =>
      (adcFlushSmoothing { s with logsmoothlen := loglen, smoothbuf := some ring }).map fun s ↦
        (true, bufFlush bufEnable s)
  else (adcFlushSmoothing s).map fun s ↦ (true, bufFlush bufEnable s)

/-- The raw sample that is read, which is what the variable holds if there is none. -/
def takeSample (bufEnable : Bool) (unread : UInt16) (s : ChState) : UInt16 × ChState :=
  if bufEnable then
    if s.valueFresh then (s.value, { s with valueFresh := false })
    else
      match s.buffer with
      | [] => (unread, s)
      | sample :: buffer => (sample, { s with buffer := buffer })
  else (s.value, { s with valueFresh := false })

/-- The index at which `adc_smooth_data` stores. -/
def wrapIndex (s : ChState) : ChState :=
  if s.smoothidx.toNat = s.smoothRealsize then { s with smoothidx := 0, smoothReady := true } else s

/-- `adc_smooth_data`: the raw sample, and the state of the channel. There is no result outside of
the ring. -/
def adcSmoothData (bufEnable : Bool) (unread : UInt16) (s : ChState) :
    Option (UInt16 × ChState) :=
  let s := wrapIndex s
  s.smoothbuf.bind fun ring ↦
    (ring[s.smoothidx.toNat]?).map fun oldest ↦
      let smoothsum := s.smoothsum - oldest.toUInt32
      let taken := takeSample bufEnable unread s
      (taken.1, { taken.2 with
        smoothbuf := some (ring.set s.smoothidx.toNat taken.1)
        smoothsum := smoothsum + taken.1.toUInt32
        smoothidx := s.smoothidx + 1 })

/-- `adc_samples_available`. -/
def adcSamplesAvailable (bufEnable : Bool) (s : ChState) : ℕ :=
  let bufferCount := s.buffer.length % 2 ^ 16
  if bufEnable then if bufferCount = 0 then s.valueFresh.toNat else bufferCount
  else s.valueFresh.toNat

/-- Counts a sample that has been asked for. -/
def countRequested (s : ChState) : ChState :=
  if 0 < s.reqsamples then { s with reqsamples := s.reqsamples - 1 } else s

/-- What `adc_get_processed_sample` returns, the raw sample that it puts into the ring, and the
state of the channel. -/
structure Processed where
  sample : UInt16
  raw : Option UInt16
  state : ChState
  deriving DecidableEq

/-- `adc_get_processed_sample`. -/
def adcGetProcessedSample (bufEnable : Bool) (unread : UInt16) (s : ChState) : Option Processed :=
  if 0 < adcSamplesAvailable bufEnable s then
    if 0 < s.logsmoothlen ∧ s.smoothReady then
      (adcSmoothData bufEnable unread s).map fun smoothed ↦
        let s := countRequested smoothed.2
        ⟨(s.smoothsum >>> s.logsmoothlen.toUInt32).toUInt16, some smoothed.1, s⟩
    else if s.logsmoothlen = 0 then
      let taken := takeSample bufEnable 0 s
      some ⟨taken.1, none, countRequested taken.2⟩
    else some ⟨0, none, s⟩
  else some ⟨0, none, s⟩

/-! ### Runs -/

/-- A channel, and the raw samples that have been put into its ring since it was cleared. -/
structure Smoothing where
  ch : ChState
  samples : List UInt16
  deriving DecidableEq

/-- The calls, with the variable that may stay unread and the answer of `realloc`, and what the
conversions do between them. -/
inductive AdcEvent
  | smoothData (unread : UInt16)
  | processedSample (unread : UInt16)
  | updateSmoothing (loglen : UInt8) (memory : Option (List UInt16))
  | conversions (opPending valueFresh : Bool) (reqsamples value : UInt16) (buffer : List UInt16)

/-- An event. -/
def adcStep (bufEnable : Bool) (state : Smoothing) : AdcEvent → Option Smoothing
  | .smoothData unread => (adcSmoothData bufEnable unread state.ch).map fun smoothed ↦
      ⟨smoothed.2, state.samples ++ [smoothed.1]⟩
  | .processedSample unread => (adcGetProcessedSample bufEnable unread state.ch).map fun processed ↦
      ⟨processed.state, state.samples ++ processed.raw.toList⟩
  | .updateSmoothing loglen memory =>
      (adcUpdateSmoothing bufEnable loglen memory state.ch).map fun updated ↦ ⟨updated.2, []⟩
  | .conversions opPending valueFresh reqsamples value buffer =>
      some { state with ch := { state.ch with
        opPending := opPending, valueFresh := valueFresh, reqsamples := reqsamples, value := value
        buffer := buffer } }

/-- The channel behind `adc_init_ch_state`. -/
def Smoothing.start : Smoothing :=
  ⟨⟨false, false, false, 0, 0, 0, none, 0, 0, []⟩, []⟩

/-- The data is smoothed only while smoothing is on. The logarithm of a new size is at most 15, and
`realloc` gives memory of the size that it is asked for. -/
def Permitted (state : Smoothing) : AdcEvent → Prop
  | .smoothData _ => 0 < state.ch.logsmoothlen
  | .updateSmoothing loglen memory =>
      loglen ≤ 15 ∧ ∀ ring ∈ memory, ring.length = 1 <<< loglen.toNat
  | _ => True

instance (state : Smoothing) (event : AdcEvent) : Decidable (Permitted state event) :=
  match event with
  | .smoothData _ => inferInstanceAs (Decidable (_ < _))
  | .updateSmoothing _ _ => inferInstanceAs (Decidable (_ ∧ _))
  | .processedSample _ => isTrue trivial
  | .conversions _ _ _ _ _ => isTrue trivial

/-- While smoothing is on, the index is inside of the ring or just behind it, the sum is that of the
ring, and neither the subtraction nor the addition of the next sample leaves the type. -/
def Exact (ch : ChState) : Prop :=
  0 < ch.logsmoothlen → ∃ ring, ch.smoothbuf = some ring ∧ ring.length = ch.smoothRealsize ∧
    ch.smoothidx.toNat ≤ ring.length ∧ ch.smoothsum.toNat = (ring.map UInt16.toNat).sum ∧
    ∀ oldest ∈ ring, ∀ sample : UInt16, oldest.toNat ≤ ch.smoothsum.toNat ∧
      ch.smoothsum.toNat - oldest.toNat + sample.toNat < 2 ^ 32

/-- Smoothing is off, with all variables cleared. -/
def IsOff (ch : ChState) : Prop :=
  ch.logsmoothlen = 0 ∧ ch.smoothsum = 0 ∧ ch.smoothidx = 0 ∧ ch.smoothReady = false

/-- The last raw samples, as many as the ring has room for. -/
def lastSamples (ch : ChState) (samples : List UInt16) : List UInt16 :=
  samples.drop (samples.length - ch.smoothRealsize)

/-- The raw sample is the value of the last conversion if it is fresh, or there are no buffers, and
the oldest sample of the buffer otherwise. It is taken away. -/
def TakesNext (bufEnable : Bool) (ch : ChState) (raw : UInt16) (after : ChState) : Prop :=
  if ch.valueFresh = true ∨ bufEnable = false then
    raw = ch.value ∧ after.valueFresh = false ∧ after.buffer = ch.buffer
  else ∀ oldest buffer, ch.buffer = oldest :: buffer →
    raw = oldest ∧ after.valueFresh = false ∧ after.buffer = buffer

/-- What a call owes: it puts the next raw sample into the ring, which is ready from the first
sample on that replaces another. A sample that is processed then is the mean of the last raw samples
rounded down, and a resize that fails leaves smoothing off. -/
def OutcomeRight (bufEnable : Bool) (state : Smoothing) : AdcEvent → Prop
  | .smoothData unread => ∃ raw after,
      adcSmoothData bufEnable unread state.ch = some (raw, after) ∧
        TakesNext bufEnable state.ch raw after ∧
        (after.smoothReady = true ↔
          state.ch.smoothRealsize < (state.samples ++ [raw]).length)
  | .processedSample unread =>
      0 < adcSamplesAvailable bufEnable state.ch → 0 < state.ch.logsmoothlen →
      state.ch.smoothReady = true → ∃ raw after,
        adcGetProcessedSample bufEnable unread state.ch = some after ∧ after.raw = some raw ∧
        TakesNext bufEnable state.ch raw after.state ∧
        state.ch.smoothRealsize ≤ (state.samples ++ [raw]).length ∧
        after.sample.toNat = ((lastSamples state.ch (state.samples ++ [raw])).map UInt16.toNat).sum /
          state.ch.smoothRealsize
  | .updateSmoothing loglen none => loglen ≠ state.ch.logsmoothlen → ∃ ok after,
      adcUpdateSmoothing bufEnable loglen none state.ch = some (ok, after) ∧ IsOff after ∧
        (ok = true ↔ loglen = 0)
  | _ => True

/-- A run from a state is right: every state in it is exact, and each event has a result and does
what it owes. -/
def SmoothingRight (bufEnable : Bool) : Smoothing → List AdcEvent → Prop
  | state, [] => Exact state.ch
  | state, event :: events => Exact state.ch ∧ OutcomeRight bufEnable state event ∧
      ∃ after, adcStep bufEnable state event = some after ∧ SmoothingRight bufEnable after events

/-! ### The invariant -/

/-- While smoothing is on, the ring holds the last raw samples behind zeros, oldest first from the
index on. -/
structure Tracks (state : Smoothing) : Prop where
  log_le : state.ch.logsmoothlen ≤ 15
  ring : 0 < state.ch.logsmoothlen → ∃ ring, state.ch.smoothbuf = some ring ∧
    ring.length = state.ch.smoothRealsize ∧ state.ch.smoothidx.toNat ≤ ring.length ∧
    state.ch.smoothsum.toNat = (ring.map UInt16.toNat).sum ∧
    ring.rotate state.ch.smoothidx.toNat = lastItems state.ch.smoothRealsize 0 state.samples ∧
    (state.ch.smoothReady = false → state.samples.length = state.ch.smoothidx.toNat) ∧
    (state.ch.smoothReady = true → state.ch.smoothRealsize ≤ state.samples.length)

section Sizes

variable {ch : ChState}

theorem smoothRealsize_eq (ch : ChState) : ch.smoothRealsize = 2 ^ ch.logsmoothlen.toNat :=
  Nat.one_shiftLeft _

theorem smoothRealsize_pos (ch : ChState) : 0 < ch.smoothRealsize := by
  rw [smoothRealsize_eq]
  exact Nat.two_pow_pos _

theorem smoothRealsize_le (hlog : ch.logsmoothlen ≤ 15) : ch.smoothRealsize ≤ 2 ^ 15 := by
  rw [smoothRealsize_eq]
  exact Nat.pow_le_pow_right (by decide) (UInt8.le_iff_toNat_le.mp hlog)

/-- The sum of a ring leaves room for a further sample. -/
theorem sum_ring_le (hlog : ch.logsmoothlen ≤ 15) {ring : List UInt16}
    (hlength : ring.length = ch.smoothRealsize) :
    (ring.map UInt16.toNat).sum + 2 ^ 16 ≤ 2 ^ 32 := by
  have hsum : (ring.map UInt16.toNat).sum ≤ ring.length * (2 ^ 16 - 1) :=
    sum_le_of_forall fun sample _ ↦ Nat.le_sub_one_of_lt sample.toNat_lt
  have hsize := smoothRealsize_le hlog
  have hbound : ring.length * (2 ^ 16 - 1) ≤ 2 ^ 15 * (2 ^ 16 - 1) :=
    Nat.mul_le_mul_right _ (hlength ▸ hsize)
  omega

/-- The actions are as many as the count says, if there are any to do. -/
theorem duffActions_eq {count : ℕ} (hcount : 0 < count) : duffActions count = count := by
  have hmask : count &&& 7 = count % 8 := Nat.and_two_pow_sub_one_eq_mod count 3
  unfold duffActions
  rw [hmask, Nat.shiftRight_eq_div_pow]
  split_ifs <;> omega

/-- Storing zeros from an index on to the end. -/
theorem storeZeros_eq (before after : List UInt16) :
    storeZeros after.length before.length (before ++ after) =
      some (before ++ List.replicate after.length 0) := by
  induction after generalizing before with
  | nil => rfl
  | cons sample after ih =>
    have hinside : before.length < (before ++ sample :: after).length := by
      rw [List.length_append, List.length_cons]
      omega
    have hset : (before ++ sample :: after).set before.length 0 = before ++ [0] ++ after := by
      rw [List.set_append_right _ _ le_rfl, Nat.sub_self, List.set_cons_zero, List.append_assoc]
      rfl
    have hnext := ih (before ++ [0])
    rw [List.length_append, List.length_singleton, List.append_assoc] at hnext
    rw [List.length_cons, storeZeros, if_pos hinside, hset, List.append_assoc]
    rw [hnext, List.replicate_succ, List.append_assoc]
    rfl

end Sizes

theorem Tracks.exact {state : Smoothing} (htracks : Tracks state) : Exact state.ch := by
  intro hon
  obtain ⟨ring, hbuf, hlength, hidx, hsum, -⟩ := htracks.ring hon
  refine ⟨ring, hbuf, hlength, hidx, hsum, fun oldest holdest sample ↦ ?_⟩
  have hmember : oldest.toNat ≤ (ring.map UInt16.toNat).sum :=
    le_sum_of_mem holdest UInt16.toNat
  have hroom := sum_ring_le htracks.log_le hlength
  have hsample := sample.toNat_lt
  omega

/-! ### The functions -/

section Functions

variable {bufEnable : Bool} {unread : UInt16} {state : Smoothing} {ch : ChState}

/-- A flush clears a ring of the right size. -/
theorem tracks_flush (hlog : ch.logsmoothlen ≤ 15)
    (hring : 0 < ch.logsmoothlen → ∃ ring, ch.smoothbuf = some ring ∧
      ring.length = ch.smoothRealsize) :
    ∃ after, adcFlushSmoothing ch = some after ∧ after.logsmoothlen = ch.logsmoothlen ∧
      after.smoothsum = 0 ∧ after.smoothidx = 0 ∧ after.smoothReady = false ∧ Tracks ⟨after, []⟩ := by
  unfold adcFlushSmoothing
  by_cases hon : 0 < ch.logsmoothlen
  · obtain ⟨ring, hbuf, hlength⟩ := hring hon
    have hzeros : storeZeros (duffActions ch.smoothRealsize) 0 ring =
        some (List.replicate ch.smoothRealsize 0) := by
      rw [duffActions_eq (smoothRealsize_pos ch), ← hlength]
      exact storeZeros_eq [] ring
    have hsum : ((List.replicate ch.smoothRealsize (0 : UInt16)).map UInt16.toNat).sum = 0 := by
      rw [List.map_replicate, List.sum_replicate]
      exact Nat.mul_zero _
    refine ⟨{ ch with
      smoothidx := 0, smoothsum := 0, smoothReady := false
      smoothbuf := some (List.replicate ch.smoothRealsize 0) }, ?_, rfl, rfl, rfl, rfl, hlog, ?_⟩
    · rw [if_pos hon]
      dsimp only
      rw [hbuf, Option.bind_some]
      exact congrArg (Option.map _) hzeros
    · intro _
      refine ⟨_, rfl, List.length_replicate, Nat.zero_le _, hsum.symm, ?_, fun _ ↦ rfl, ?_⟩
      · rw [lastItems_nil]
        exact List.rotate_zero _
      · intro hready
        cases hready
  · rw [if_neg hon]
    exact ⟨_, rfl, rfl, rfl, rfl, rfl, hlog, fun hoff ↦ absurd hoff hon⟩

/-- Taking a sample takes the next one, and leaves the ring alone. -/
theorem takeSample_cases (bufEnable : Bool) (unread : UInt16) (ch : ChState) :
    ∃ raw fresh buffer,
      takeSample bufEnable unread ch = (raw, { ch with valueFresh := fresh, buffer := buffer }) ∧
        TakesNext bufEnable ch raw { ch with valueFresh := fresh, buffer := buffer } := by
  unfold takeSample TakesNext
  cases bufEnable with
  | false =>
    refine ⟨ch.value, false, ch.buffer, if_neg Bool.noConfusion, ?_⟩
    rw [if_pos (.inr rfl)]
    exact ⟨rfl, rfl, rfl⟩
  | true =>
    rw [if_pos rfl]
    by_cases hfresh : ch.valueFresh = true
    · refine ⟨ch.value, false, ch.buffer, if_pos hfresh, ?_⟩
      rw [if_pos (.inl hfresh)]
      exact ⟨rfl, rfl, rfl⟩
    · have hnext : ¬(ch.valueFresh = true ∨ true = false) := not_or.mpr ⟨hfresh, Bool.noConfusion⟩
      rw [if_neg hfresh]
      cases hbuffer : ch.buffer with
      | nil =>
        refine ⟨unread, ch.valueFresh, ch.buffer, rfl, ?_⟩
        rw [if_neg hnext]
        exact nofun
      | cons oldest buffer =>
        refine ⟨oldest, ch.valueFresh, buffer, rfl, ?_⟩
        rw [if_neg hnext]
        intro first rest heq
        obtain ⟨rfl, rfl⟩ := List.cons.inj heq
        exact ⟨rfl, eq_false_of_ne_true hfresh, rfl⟩

/-- The index behind the end of the ring is that of its start. -/
theorem Tracks.wrap {samples : List UInt16} (htracks : Tracks ⟨ch, samples⟩) :
    Tracks ⟨wrapIndex ch, samples⟩ := by
  unfold wrapIndex
  split_ifs with hend
  · refine ⟨htracks.log_le, fun hon ↦ ?_⟩
    obtain ⟨ring, hbuf, hlength, -, hsum, hrotate, hwarm, hready⟩ := htracks.ring hon
    refine ⟨ring, hbuf, hlength, Nat.zero_le _, hsum, ?_, nofun, fun _ ↦ ?_⟩
    · dsimp only at hrotate
      rw [hend, ← hlength, List.rotate_length] at hrotate
      exact (List.rotate_zero ring).trans (hrotate.trans (by rw [hlength]; rfl))
    · show ch.smoothRealsize ≤ samples.length
      cases hflag : ch.smoothReady with
      | false => exact hend.symm.trans (hwarm hflag).symm |>.le
      | true => exact hready hflag
  · exact htracks

theorem wrapIndex_fields (ch : ChState) : (wrapIndex ch).logsmoothlen = ch.logsmoothlen ∧
    (ch.smoothReady = true → (wrapIndex ch).smoothReady = true) := by
  unfold wrapIndex
  split_ifs
  · exact ⟨rfl, fun _ ↦ rfl⟩
  · exact ⟨rfl, id⟩

theorem takesNext_wrapIndex {raw : UInt16} {after : ChState} :
    TakesNext bufEnable (wrapIndex ch) raw after ↔ TakesNext bufEnable ch raw after := by
  unfold wrapIndex
  split_ifs <;> exact Iff.rfl

theorem wrapIndex_lt (hle : ch.smoothidx.toNat ≤ ch.smoothRealsize) :
    (wrapIndex ch).smoothidx.toNat < (wrapIndex ch).smoothRealsize := by
  unfold wrapIndex
  split_ifs with hend
  · exact smoothRealsize_pos ch
  · exact lt_of_le_of_ne hle hend

/-- The sum behind a sample, where the old value is part of it and the new one fits. -/
theorem toNat_smoothsum {sum : UInt32} {oldest sample : UInt16} (hold : oldest.toNat ≤ sum.toNat)
    (hroom : sum.toNat - oldest.toNat + sample.toNat < 2 ^ 32) :
    (sum - oldest.toUInt32 + sample.toUInt32).toNat =
      sum.toNat - oldest.toNat + sample.toNat := by
  have hle : oldest.toUInt32 ≤ sum := by
    rw [UInt32.le_iff_toNat_le, UInt16.toNat_toUInt32]
    exact hold
  rw [UInt32.toNat_add, UInt32.toNat_sub_of_le _ _ hle, UInt16.toNat_toUInt32,
    UInt16.toNat_toUInt32, Nat.mod_eq_of_lt hroom]

/-- A sample takes the place of the oldest one in the ring. -/
theorem Tracks.replace {samples ring : List UInt16} (htracks : Tracks ⟨ch, samples⟩)
    (hon : 0 < ch.logsmoothlen) (hbuf : ch.smoothbuf = some ring) {oldest : UInt16}
    (holdest : ring[ch.smoothidx.toNat]? = some oldest) (raw : UInt16) (fresh : Bool)
    (buffer : List UInt16) :
    Tracks ⟨{ ch with
      valueFresh := fresh, buffer := buffer
      smoothbuf := some (ring.set ch.smoothidx.toNat raw)
      smoothsum := ch.smoothsum - oldest.toUInt32 + raw.toUInt32
      smoothidx := ch.smoothidx + 1 }, samples ++ [raw]⟩ := by
  obtain ⟨ring', hbuf', hlength, -, hsum, hrotate, hwarm, hfull⟩ := htracks.ring hon
  obtain ⟨ring'', hbuf'', -, -, -, hfits⟩ := htracks.exact hon
  obtain rfl := Option.some.inj (hbuf.symm.trans hbuf')
  obtain rfl := Option.some.inj (hbuf.symm.trans hbuf'')
  dsimp only at hlength hsum hrotate hwarm hfull
  obtain ⟨hlt, -⟩ := List.getElem?_eq_some_iff.mp holdest
  obtain ⟨hold, hroom⟩ := hfits oldest (List.mem_of_getElem? holdest) raw
  have hidx : (ch.smoothidx + 1).toNat = ch.smoothidx.toNat + 1 := by
    have hsize := smoothRealsize_le htracks.log_le
    have hone : (1 : UInt16).toNat = 1 := rfl
    rw [UInt16.toNat_add, hone, Nat.mod_eq_of_lt (by dsimp only at hsize; omega)]
  refine ⟨htracks.log_le, fun _ ↦ ⟨_, rfl, ?_, ?_, ?_, ?_, ?_, ?_⟩⟩
  · rw [List.length_set]
    exact hlength
  · show (ch.smoothidx + 1).toNat ≤ _
    rw [hidx, List.length_set]
    exact hlt
  · have hset := sum_set holdest UInt16.toNat raw
    show (ch.smoothsum - oldest.toUInt32 + raw.toUInt32).toNat = _
    rw [toNat_smoothsum hold hroom, hsum]
    rw [hsum] at hold
    omega
  · show (ring.set _ raw).rotate (ch.smoothidx + 1).toNat = _
    rw [hidx, rotate_set hlt, hrotate]
    exact (lastItems_append_singleton (smoothRealsize_pos _) 0 samples raw).symm
  · intro hcold
    show (samples ++ [raw]).length = (ch.smoothidx + 1).toNat
    rw [hidx, List.length_append, List.length_singleton, hwarm hcold]
  · intro hwarmed
    rw [List.length_append]
    exact (hfull hwarmed).trans (Nat.le_add_right _ _)

/-- Smoothing takes a sample into the ring. -/
theorem Tracks.smooth {samples : List UInt16} (htracks : Tracks ⟨ch, samples⟩)
    (hon : 0 < ch.logsmoothlen) : ∃ raw after,
      adcSmoothData bufEnable unread ch = some (raw, after) ∧
      TakesNext bufEnable ch raw after ∧ after.logsmoothlen = ch.logsmoothlen ∧
      (after.smoothReady = true ↔ ch.smoothRealsize < (samples ++ [raw]).length) ∧
      (ch.smoothReady = true → after.smoothReady = true) ∧ Tracks ⟨after, samples ++ [raw]⟩ := by
  obtain ⟨hlog, hready⟩ := wrapIndex_fields ch
  have hwrap := htracks.wrap
  have hon' : 0 < (wrapIndex ch).logsmoothlen := by
    rw [hlog]
    exact hon
  have hlt : (wrapIndex ch).smoothidx.toNat < (wrapIndex ch).smoothRealsize := by
    obtain ⟨ring, -, hlength, hidx, -⟩ := htracks.ring hon
    exact wrapIndex_lt (hlength ▸ hidx)
  obtain ⟨ring, hbuf, hlength, -, -, -, hwarm, hfull⟩ := hwrap.ring hon'
  dsimp only at hbuf hlength hwarm hfull
  obtain ⟨oldest, holdest⟩ : ∃ oldest, ring[(wrapIndex ch).smoothidx.toNat]? = some oldest :=
    ⟨_, List.getElem?_eq_getElem (hlength ▸ hlt)⟩
  obtain ⟨raw, fresh, buffer, htaken, hnext⟩ := takeSample_cases bufEnable unread (wrapIndex ch)
  have hsize : (wrapIndex ch).smoothRealsize = ch.smoothRealsize := by
    rw [smoothRealsize_eq, smoothRealsize_eq, hlog]
  refine ⟨raw, { wrapIndex ch with
    valueFresh := fresh, buffer := buffer
    smoothbuf := some (ring.set (wrapIndex ch).smoothidx.toNat raw)
    smoothsum := (wrapIndex ch).smoothsum - oldest.toUInt32 + raw.toUInt32
    smoothidx := (wrapIndex ch).smoothidx + 1 }, ?_, takesNext_wrapIndex.mp hnext, hlog, ?_, hready,
      hwrap.replace hon' hbuf holdest raw fresh buffer⟩
  · unfold adcSmoothData
    dsimp only
    rw [hbuf, Option.bind_some, holdest, Option.map_some, htaken]
  · show (wrapIndex ch).smoothReady = true ↔ _
    rw [List.length_append, List.length_singleton, ← hsize]
    cases hflag : (wrapIndex ch).smoothReady with
    | false =>
      rw [hwarm hflag]
      exact iff_of_false Bool.noConfusion (Nat.not_lt.mpr hlt)
    | true => exact iff_of_true rfl (Nat.lt_succ_of_le (hfull hflag))

/-- The variables of the conversions do not matter. -/
theorem Tracks.surroundings {samples : List UInt16} (htracks : Tracks ⟨ch, samples⟩)
    (opPending valueFresh : Bool) (reqsamples value : UInt16) (buffer : List UInt16) :
    Tracks ⟨{ ch with
      opPending := opPending, valueFresh := valueFresh, reqsamples := reqsamples, value := value
      buffer := buffer }, samples⟩ :=
  ⟨htracks.log_le, htracks.ring⟩

theorem countRequested_frame (ch : ChState) :
    ∃ reqsamples, countRequested ch = { ch with reqsamples := reqsamples } := by
  unfold countRequested
  split_ifs
  · exact ⟨_, rfl⟩
  · exact ⟨ch.reqsamples, rfl⟩

/-- Once the ring is full, the shifted sum is the mean of the last samples. -/
theorem Tracks.mean {samples : List UInt16} (htracks : Tracks ⟨ch, samples⟩)
    (hon : 0 < ch.logsmoothlen) (hready : ch.smoothReady = true) :
    ch.smoothRealsize ≤ samples.length ∧
      (ch.smoothsum >>> ch.logsmoothlen.toUInt32).toUInt16.toNat =
        ((lastSamples ch samples).map UInt16.toNat).sum / ch.smoothRealsize := by
  obtain ⟨ring, -, hlength, -, hsum, hrotate, -, hfull⟩ := htracks.ring hon
  dsimp only at hlength hsum hrotate hfull
  have hlast : ((lastSamples ch samples).map UInt16.toNat).sum = ch.smoothsum.toNat := by
    rw [lastSamples, ← lastItems_of_le (hfull hready) 0, ← hrotate, sum_rotate, hsum]
  have hbound : ch.smoothsum.toNat ≤ ring.length * (2 ^ 16 - 1) := by
    rw [hsum]
    exact sum_le_of_forall fun sample _ ↦ Nat.le_sub_one_of_lt sample.toNat_lt
  have hmean : ch.smoothsum.toNat / ch.smoothRealsize < 2 ^ 16 := by
    rw [Nat.div_lt_iff_lt_mul (smoothRealsize_pos ch), Nat.mul_comm]
    refine hbound.trans_lt ?_
    rw [hlength]
    exact Nat.mul_lt_mul_of_pos_left (by decide) (smoothRealsize_pos ch)
  have hlog : ch.logsmoothlen.toUInt32.toNat % 32 = ch.logsmoothlen.toNat := by
    have hle := UInt8.le_iff_toNat_le.mp htracks.log_le
    have hfifteen : (15 : UInt8).toNat = 15 := rfl
    rw [UInt8.toNat_toUInt32]
    dsimp only at hle
    omega
  refine ⟨hfull hready, ?_⟩
  rw [UInt32.toNat_toUInt16, UInt32.toNat_shiftRight, hlog, Nat.shiftRight_eq_div_pow,
    ← smoothRealsize_eq, hlast, Nat.mod_eq_of_lt hmean]

/-- A sample that is read. -/
theorem Tracks.processed {samples : List UInt16} (htracks : Tracks ⟨ch, samples⟩) :
    OutcomeRight bufEnable ⟨ch, samples⟩ (.processedSample unread) ∧
      ∃ processed, adcGetProcessedSample bufEnable unread ch = some processed ∧
        Tracks ⟨processed.state, samples ++ processed.raw.toList⟩ := by
  unfold OutcomeRight adcGetProcessedSample
  dsimp only
  by_cases havailable : 0 < adcSamplesAvailable bufEnable ch
  · rw [if_pos havailable]
    by_cases hsmooth : 0 < ch.logsmoothlen ∧ ch.smoothReady = true
    · obtain ⟨raw, after, hdata, hnext, hlog, -, hready, hafter⟩ :=
        @Tracks.smooth bufEnable unread ch samples htracks hsmooth.1
      obtain ⟨reqsamples, hcount⟩ := countRequested_frame after
      have hcounted : Tracks ⟨countRequested after, samples ++ [raw]⟩ := by
        rw [hcount]
        exact hafter.surroundings after.opPending after.valueFresh reqsamples after.value
          after.buffer
      have hmean := hafter.mean (by rw [hlog]; exact hsmooth.1) (hready hsmooth.2)
      have hsize : after.smoothRealsize = ch.smoothRealsize := by
        rw [smoothRealsize_eq, smoothRealsize_eq, hlog]
      rw [if_pos hsmooth, hdata, Option.map_some]
      refine ⟨fun _ _ _ ↦ ⟨raw, _, rfl, rfl, ?_, ?_, ?_⟩, _, rfl, hcounted⟩
      · dsimp only
        rw [hcount]
        exact hnext
      · rw [← hsize]
        exact hmean.1
      · rw [hcount, ← hsize, lastSamples, ← hsize]
        exact hmean.2
    · rw [if_neg hsmooth]
      refine ⟨fun _ hon hready ↦ absurd ⟨hon, hready⟩ hsmooth, ?_⟩
      by_cases hoff : ch.logsmoothlen = 0
      · obtain ⟨raw, fresh, buffer, htaken, -⟩ := takeSample_cases bufEnable 0 ch
        obtain ⟨reqsamples, hcount⟩ := countRequested_frame (takeSample bufEnable 0 ch).2
        rw [if_pos hoff]
        refine ⟨_, rfl, ?_⟩
        dsimp only
        rw [Option.toList_none, List.append_nil, hcount, htaken]
        exact htracks.surroundings ch.opPending fresh reqsamples ch.value buffer
      · rw [if_neg hoff]
        refine ⟨_, rfl, ?_⟩
        rw [Option.toList_none, List.append_nil]
        exact htracks
  · rw [if_neg havailable]
    refine ⟨fun hpositive ↦ absurd hpositive havailable, _, rfl, ?_⟩
    rw [Option.toList_none, List.append_nil]
    exact htracks

/-- Flushing the buffer of the channel leaves the ring alone. -/
theorem Tracks.bufFlush {samples : List UInt16} (htracks : Tracks ⟨ch, samples⟩) :
    Tracks ⟨bufFlush bufEnable ch, samples⟩ := by
  unfold Adc.bufFlush
  split_ifs
  · exact htracks.surroundings ch.opPending ch.valueFresh ch.reqsamples ch.value []
  · exact htracks

theorem bufFlush_isOff (hoff : IsOff ch) : IsOff (bufFlush bufEnable ch) := by
  unfold bufFlush
  split_ifs <;> exact hoff

/-- Without a ring there is nothing to hold. -/
theorem IsOff.tracks (hoff : IsOff ch) (samples : List UInt16) : Tracks ⟨ch, samples⟩ := by
  have hzero : ¬0 < ch.logsmoothlen := by
    rw [hoff.1]
    decide
  refine ⟨?_, fun hon ↦ absurd hon hzero⟩
  show ch.logsmoothlen ≤ 15
  rw [hoff.1]
  decide

/-- `platform_adc_stop` leaves the ring alone. -/
theorem stop_frame (ch : ChState) : ∃ opPending, (if ch.opPending then
    { ch with opPending := false } else ch) = { ch with opPending := opPending } := by
  split_ifs
  · exact ⟨false, rfl⟩
  · exact ⟨ch.opPending, rfl⟩

/-- There is no memory for the new size. -/
theorem exists_update_none {loglen : UInt8} (hother : loglen ≠ ch.logsmoothlen) :
    ∃ ok after, adcUpdateSmoothing bufEnable loglen none ch = some (ok, after) ∧ IsOff after ∧
      (ok = true ↔ loglen = 0) := by
  obtain ⟨opPending, hstop⟩ := stop_frame ch
  have hcleared : ¬(0 : UInt8) < 0 := by decide
  unfold adcUpdateSmoothing
  rw [hstop]
  dsimp only
  rw [if_pos hother]
  by_cases hzero : loglen = 0
  · obtain ⟨after, hflush, hlog, hsum, hidx, hready, -⟩ :=
      @tracks_flush { ch with
        opPending := opPending, smoothbuf := none, logsmoothlen := 0, smoothidx := 0
        smoothReady := false, smoothsum := 0 } (by decide : (0 : UInt8) ≤ 15)
        (fun hon ↦ absurd hon hcleared)
    rw [if_neg (not_not.mpr hzero), hflush, Option.map_some]
    exact ⟨true, _, rfl, bufFlush_isOff ⟨hlog, hsum, hidx, hready⟩, iff_of_true rfl hzero⟩
  · rw [if_pos hzero]
    exact ⟨false, _, rfl, ⟨rfl, rfl, rfl, rfl⟩, iff_of_false Bool.noConfusion hzero⟩

/-- There is memory for the new size. -/
theorem exists_update_some {loglen : UInt8} {ring : List UInt16}
    (hother : loglen ≠ ch.logsmoothlen) (hloglen : loglen ≤ 15)
    (hring : ring.length = 1 <<< loglen.toNat) :
    ∃ updated, adcUpdateSmoothing bufEnable loglen (some ring) ch = some updated ∧
      Tracks ⟨updated.2, []⟩ := by
  obtain ⟨opPending, hstop⟩ := stop_frame ch
  obtain ⟨after, hflush, -, -, -, -, hafter⟩ :=
    @tracks_flush { ch with
      opPending := opPending, logsmoothlen := loglen, smoothbuf := some ring } hloglen
      (fun _ ↦ ⟨ring, rfl, hring⟩)
  unfold adcUpdateSmoothing
  rw [hstop]
  dsimp only
  rw [if_pos hother, hflush, Option.map_some]
  exact ⟨_, rfl, hafter.bufFlush⟩

/-- The size stays, and the ring is cleared. -/
theorem Tracks.exists_update_same {samples : List UInt16} (htracks : Tracks ⟨ch, samples⟩)
    (memory : Option (List UInt16)) :
    ∃ updated, adcUpdateSmoothing bufEnable ch.logsmoothlen memory ch = some updated ∧
      Tracks ⟨updated.2, []⟩ := by
  obtain ⟨opPending, hstop⟩ := stop_frame ch
  obtain ⟨after, hflush, -, -, -, -, hafter⟩ :=
    @tracks_flush { ch with opPending := opPending } htracks.log_le fun hon ↦ by
      obtain ⟨ring, hbuf, hlength, -⟩ := htracks.ring hon
      exact ⟨ring, hbuf, hlength⟩
  unfold adcUpdateSmoothing
  rw [hstop]
  dsimp only
  rw [if_neg (not_not.mpr rfl), hflush, Option.map_some]
  exact ⟨_, rfl, hafter.bufFlush⟩

/-- A new size, or the old one. -/
theorem Tracks.updated {samples : List UInt16} {loglen : UInt8} {memory : Option (List UInt16)}
    (htracks : Tracks ⟨ch, samples⟩) (hloglen : loglen ≤ 15)
    (hmemory : ∀ ring ∈ memory, ring.length = 1 <<< loglen.toNat) :
    OutcomeRight bufEnable ⟨ch, samples⟩ (.updateSmoothing loglen memory) ∧
      ∃ updated, adcUpdateSmoothing bufEnable loglen memory ch = some updated ∧
        Tracks ⟨updated.2, []⟩ := by
  by_cases hsame : loglen = ch.logsmoothlen
  · subst hsame
    refine ⟨?_, htracks.exists_update_same memory⟩
    cases memory with
    | none => exact fun hother ↦ absurd rfl hother
    | some ring => trivial
  · cases memory with
    | none =>
      obtain ⟨ok, after, hupdate, hoff, hok⟩ := @exists_update_none bufEnable ch loglen hsame
      exact ⟨fun _ ↦ ⟨ok, after, hupdate, hoff, hok⟩, _, hupdate, hoff.tracks []⟩
    | some ring => exact ⟨trivial, exists_update_some hsame hloglen (hmemory ring rfl)⟩

/-- An event that is permitted has a result, does what it owes and keeps the invariant. -/
theorem Tracks.step {event : AdcEvent} (htracks : Tracks state)
    (hpermitted : Permitted state event) :
    OutcomeRight bufEnable state event ∧
      ∃ after, adcStep bufEnable state event = some after ∧ Tracks after := by
  cases event with
  | smoothData unread =>
    obtain ⟨raw, after, hdata, hnext, -, hready, -, hafter⟩ :=
      @Tracks.smooth bufEnable unread state.ch state.samples htracks hpermitted
    exact ⟨⟨raw, after, hdata, hnext, hready⟩, _, congrArg (Option.map _) hdata, hafter⟩
  | processedSample unread =>
    obtain ⟨houtcome, processed, hprocessed, hafter⟩ :=
      @Tracks.processed bufEnable unread state.ch state.samples htracks
    exact ⟨houtcome, _, congrArg (Option.map _) hprocessed, hafter⟩
  | updateSmoothing loglen memory =>
    obtain ⟨houtcome, updated, hupdated, hafter⟩ :=
      @Tracks.updated bufEnable state.ch state.samples loglen memory htracks hpermitted.1
        hpermitted.2
    exact ⟨houtcome, _, congrArg (Option.map _) hupdated, hafter⟩
  | conversions opPending valueFresh reqsamples value buffer =>
    exact ⟨trivial, _, rfl, htracks.surroundings opPending valueFresh reqsamples value buffer⟩

end Functions

theorem tracks_start : Tracks .start := ⟨by decide, fun hon ↦ absurd hon (by decide)⟩

/-- A run of permitted events from a state that tracks is right. -/
theorem Tracks.smoothingRight {bufEnable : Bool} {state : Smoothing} {events : List AdcEvent}
    (htracks : Tracks state)
    (hpermits : PermitsEvents (adcStep bufEnable) Permitted state events) :
    SmoothingRight bufEnable state events := by
  induction events generalizing state with
  | nil => exact htracks.exact
  | cons event events ih =>
    obtain ⟨hpermitted, hrest⟩ := hpermits
    obtain ⟨houtcome, after, hstep, hafter⟩ := @Tracks.step bufEnable state event htracks hpermitted
    exact ⟨htracks.exact, houtcome, after, hstep, ih hafter (hrest after hstep)⟩

/-- For every run from the start: the moving average is exact. -/
theorem smoothing_exact {bufEnable : Bool} {events : List AdcEvent}
    (hpermits : PermitsEvents (adcStep bufEnable) Permitted .start events) :
    SmoothingRight bufEnable .start events :=
  tracks_start.smoothingRight hpermits

/-- A ring of two samples is set up, filled and read, and then it cannot grow. -/
def averageOfTwo : List AdcEvent :=
  [.updateSmoothing 1 (some [7, 7]), .conversions true true 1 4 [], .smoothData 0,
    .conversions true true 1 9 [], .smoothData 0, .conversions true true 1 6 [],
    .smoothData 0, .conversions true true 1 8 [], .processedSample 0, .updateSmoothing 3 none]

theorem smoothing_exact_averageOfTwo : SmoothingRight true .start averageOfTwo :=
  smoothing_exact (by decide)

end Elua.Adc
