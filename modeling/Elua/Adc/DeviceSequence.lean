import Elua.Foundation.TransitionSystem
import Mathlib.Data.List.Basic
import Mathlib.Logic.Function.Basic
import Mathlib.Order.Nat
import Mathlib.Tactic.Common

/-!
# The conversion sequence of the ADC

`adc_update_dev_sequence` rewrites the list of the channels that are converted one after the other.
It remembers the channel under conversion by its number, `previd`, which it reads before anything
else, through a pointer that is null where the sequence is empty. What is read there is part of an
event.

Behind the rewriting it calls `platform_adc_update_sequence`, which is a part of the board.

In every run the entries follow the active channels as of the last update (`Sequenced`). An update
is right exactly if the sequence that it starts from is not empty and the platform reads only
entries of the new one (`updateRight_iff`): an empty one, like the one of the start, makes it read
through the null pointer. The platform `lm3s` reads an entry also if there is none
(`updateRight_lm3s_iff`). -/

set_option autoImplicit false
set_option relaxedAutoImplicit false

namespace Elua.Adc

open Foundation TransitionSystem

/-! ### The code -/

/-- `elua_adc_dev_state`, and what an update changes of the channels: `value_ptr`, as the number of
an entry of `sample_buf`, and `value_fresh`. A channel is its number, as `adc_init_ch_state` sets
it. -/
structure DevState where
  chState : List (Option ℕ)
  forceReseq : Bool
  chActive : BitVec 32
  lastChActive : BitVec 32
  seqCtr : ℕ
  seqLen : ℕ
  valuePtr : ℕ → Option ℕ
  valueFresh : ℕ → Bool

/-- A board: `NUM_ADC`, of which there are no more than bits in `ch_active`, and
`platform_adc_update_sequence`, which changes nothing but the counter. -/
structure AdcBoard where
  numAdc : ℕ
  fits : numAdc ≤ 32
  /-- The indices of the entries through which it reads channels, and the counter that it leaves. -/
  updateSequence : DevState → List ℕ × ℕ

/-- The bit of a channel. -/
def channelBit (id : ℕ) : BitVec 32 := 1 <<< id

/-- `ACTIVATE_CHANNEL`. -/
def DevState.activateChannel (d : DevState) (id : ℕ) : DevState :=
  { d with chActive := d.chActive ||| channelBit id }

/-- `INACTIVATE_CHANNEL`. -/
def DevState.inactivateChannel (d : DevState) (id : ℕ) : DevState :=
  { d with chActive := d.chActive &&& ~~~channelBit id }

/-- A pass of the loop over the channels, with `tmp_seq_ctr`. -/
def placeChannel (previd : ℕ) (d : DevState × ℕ) (id : ℕ) : DevState × ℕ :=
  if 0 < (d.1.chActive &&& channelBit id).toNat then
    ({ d.1 with
        chState := d.1.chState.set d.1.seqCtr (some id)
        valuePtr := Function.update d.1.valuePtr id (some id)
        valueFresh := Function.update d.1.valueFresh id false
        seqCtr := d.1.seqCtr + 1 },
      if id = previd then d.1.seqCtr else d.2)
  else d

/-- `d->ch_state[ d->seq_ctr ++ ] = NULL`, a number of times. -/
def nullOut : ℕ → DevState → DevState
  | 0, d => d
  | times + 1, d =>
    nullOut times { d with chState := d.chState.set d.seqCtr none, seqCtr := d.seqCtr + 1 }

/-- The entry of an index. -/
def DevState.entry (d : DevState) (index : ℕ) : Option ℕ := (d.chState[index]?).join

/-- `previd`, where a null pointer gives `unread`. -/
def DevState.previd (d : DevState) (unread : ℕ) : ℕ := (d.entry d.seqCtr).getD unread

/-- The sequence is to be rewritten. -/
def DevState.Changed (d : DevState) : Prop := d.chActive ≠ d.lastChActive ∨ d.forceReseq = true

instance (d : DevState) : Decidable d.Changed := inferInstanceAs (Decidable (_ ∨ _))

/-- The rewriting: the device as the platform finds it, and `tmp_seq_ctr`. -/
def rewriteSequence (board : AdcBoard) (previd : ℕ) (d : DevState) : DevState × ℕ :=
  let placed := (List.range board.numAdc).foldl (placeChannel previd) ({ d with seqCtr := 0 }, 0)
  let d := { placed.1 with seqLen := placed.1.seqCtr }
  let d := nullOut (board.numAdc - d.seqCtr) d
  ({ d with seqCtr := 0 }, placed.2)

/-- `adc_update_dev_sequence`. -/
def adcUpdateDevSequence (board : AdcBoard) (unread : ℕ) (d : DevState) : DevState :=
  let previd := d.previd unread
  if d.Changed then
    let (d, tmpSeqCtr) := rewriteSequence board previd d
    let d := { d with seqCtr := (board.updateSequence d).2 }
    { d with lastChActive := d.chActive, seqCtr := tmpSeqCtr, forceReseq := false }
  else d

/-- The entries that an update dereferences, its own and those of the platform. -/
def dereferenced (board : AdcBoard) (unread : ℕ) (d : DevState) : List (Option ℕ) :=
  d.entry d.seqCtr ::
    if d.Changed then
      let (d, _) := rewriteSequence board (d.previd unread) d
      (board.updateSequence d).1.map d.entry
    else []

/-! ### Runs -/

/-- What happens to the device. A conversion moves the counter. -/
inductive SeqEvent
  | activate (id : ℕ)
  | inactivate (id : ℕ)
  | forceReseq
  | convert (seqCtr : ℕ)
  | update (unread : ℕ)

/-- An event. A conversion keeps the counter inside of the sequence. -/
def seqStep (board : AdcBoard) (d : DevState) : SeqEvent → Option DevState
  | .activate id => some (d.activateChannel id)
  | .inactivate id => some (d.inactivateChannel id)
  | .forceReseq => some { d with forceReseq := true }
  | .convert seqCtr =>
    if seqCtr < d.seqLen ∨ seqCtr = 0 then some { d with seqCtr := seqCtr } else none
  | .update unread => some (adcUpdateDevSequence board unread d)

/-- The device at the start, behind `adc_init_dev_state` and `adc_init_ch_state`. -/
def DevState.start (board : AdcBoard) : DevState :=
  ⟨List.replicate board.numAdc none, false, 0, 0, 0, 0, fun _ ↦ none, fun _ ↦ false⟩

/-- The device as a transition system. -/
def adcDevice (board : AdcBoard) : TransitionSystem DevState SeqEvent :=
  .ofFunction (· = .start board) (seqStep board)

/-- The active channels below a bound, in ascending order. -/
def activeChannels (active : BitVec 32) (bound : ℕ) : List ℕ :=
  (List.range bound).filter fun id ↦ active.getLsbD id

/-- The entries are the active channels, and null pointers behind them. -/
def Follows (board : AdcBoard) (active : BitVec 32) (d : DevState) : Prop :=
  d.seqLen = (activeChannels active board.numAdc).length ∧
    d.chState = (activeChannels active board.numAdc).map some ++
      List.replicate (board.numAdc - d.seqLen) none

/-- The counter points to a channel. -/
def DevState.PointsTo (d : DevState) (id : ℕ) : Prop := d.chState[d.seqCtr]? = some (some id)

/-- Where the sequence is rewritten, the platform reads only entries of active channels. -/
def PlatformInside (board : AdcBoard) (unread : ℕ) (d : DevState) : Prop :=
  d.Changed → ∀ index ∈ (board.updateSequence (rewriteSequence board (d.previd unread) d).1).1,
    index < (activeChannels d.chActive board.numAdc).length

/-- An update is right: no null pointer is dereferenced, the sequence behind it follows the active
channels, and the counter points to the channel to which it has pointed if that is still active, and
otherwise is 0 and the index of an entry if there is one. -/
structure UpdateRight (board : AdcBoard) (unread : ℕ) (d : DevState) : Prop where
  notNull : none ∉ dereferenced board unread d
  follows : Follows board d.chActive (adcUpdateDevSequence board unread d)
  keeps : ∀ id ∈ activeChannels d.chActive board.numAdc, d.PointsTo id →
    (adcUpdateDevSequence board unread d).PointsTo id
  restarts : (∀ id ∈ activeChannels d.chActive board.numAdc, ¬d.PointsTo id) →
    (adcUpdateDevSequence board unread d).seqCtr = 0
  valid : 0 < (adcUpdateDevSequence board unread d).seqLen →
    (adcUpdateDevSequence board unread d).seqCtr < (adcUpdateDevSequence board unread d).seqLen

/-! ### The entries -/

section Entries

variable {board : AdcBoard} {d : DevState} {id previd bound : ℕ} {active : BitVec 32}

theorem activeChannels_succ (active : BitVec 32) (bound : ℕ) :
    activeChannels active (bound + 1) = activeChannels active bound ++
      if active.getLsbD bound = true then [bound] else [] := by
  unfold activeChannels
  rw [List.range_succ, List.filter_append, List.filter_singleton, cond_eq_ite]

theorem length_activeChannels_le (active : BitVec 32) (bound : ℕ) :
    (activeChannels active bound).length ≤ bound :=
  (List.length_filter_le _ _).trans List.length_range.le

/-- The test of the code is on the bit of the channel. -/
theorem and_channelBit_pos (hid : id < 32) :
    0 < (active &&& channelBit id).toNat ↔ active.getLsbD id = true := by
  have hbit : channelBit id = BitVec.twoPow 32 id := (BitVec.twoPow_eq 32 id).symm
  rw [hbit, BitVec.and_twoPow]
  cases hactive : active.getLsbD id with
  | false => exact iff_of_false (by simp) Bool.false_ne_true
  | true =>
    refine iff_of_true ?_ rfl
    rw [if_pos rfl, BitVec.toNat_twoPow_of_lt hid]
    exact Nat.two_pow_pos id

/-- What the loop has done with the channels below a bound: it has put the active ones in front of
the old entries, and noted where the channel under conversion has come. -/
structure Placed (previd : ℕ) (d : DevState) (bound : ℕ) (placed : DevState × ℕ) : Prop where
  active_eq : placed.1.chActive = d.chActive
  seqCtr_eq : placed.1.seqCtr = (activeChannels d.chActive bound).length
  chState_eq : placed.1.chState = (activeChannels d.chActive bound).map some ++
    d.chState.drop (activeChannels d.chActive bound).length
  noted : previd ∈ activeChannels d.chActive bound →
    (activeChannels d.chActive bound)[placed.2]? = some previd
  unnoted : previd ∉ activeChannels d.chActive bound → placed.2 = 0

/-- A pass of the loop. -/
theorem Placed.next {placed : DevState × ℕ} (hplaced : Placed previd d bound placed)
    (hbound : bound < 32) (hlength : bound < d.chState.length) :
    Placed previd d (bound + 1) (placeChannel previd placed bound) := by
  have hactive := activeChannels_succ d.chActive bound
  have hroom := (length_activeChannels_le d.chActive bound).trans_lt hlength
  unfold placeChannel
  by_cases hbit : d.chActive.getLsbD bound = true
  · have htest : 0 < (placed.1.chActive &&& channelBit bound).toNat := by
      rw [hplaced.active_eq]
      exact (and_channelBit_pos hbound).mpr hbit
    rw [if_pos hbit] at hactive
    rw [if_pos htest]
    constructor
    · exact hplaced.active_eq
    · rw [hactive, List.length_append, hplaced.seqCtr_eq]
      rfl
    · show placed.1.chState.set placed.1.seqCtr (some bound) = _
      rw [hactive, hplaced.chState_eq, hplaced.seqCtr_eq, List.drop_eq_getElem_cons hroom,
        List.set_append_right _ _ (List.length_map _).le, List.length_map, Nat.sub_self,
        List.set_cons_zero, List.map_append, List.length_append, List.append_assoc]
      rfl
    · intro hmem
      show (activeChannels d.chActive (bound + 1))[if bound = previd then placed.1.seqCtr else
        placed.2]? = some previd
      rw [hactive] at hmem ⊢
      by_cases hsame : bound = previd
      · rw [if_pos hsame, hplaced.seqCtr_eq, List.getElem?_append_right le_rfl, Nat.sub_self, hsame]
        rfl
      · rw [if_neg hsame]
        have hbefore : previd ∈ activeChannels d.chActive bound :=
          (List.mem_append.mp hmem).resolve_right fun hlast ↦
            hsame (List.mem_singleton.mp hlast).symm
        have hnoted := hplaced.noted hbefore
        obtain ⟨hindex, -⟩ := List.getElem?_eq_some_iff.mp hnoted
        rw [List.getElem?_append_left hindex]
        exact hnoted
    · intro hnot
      rw [hactive, List.mem_append, not_or, List.mem_singleton] at hnot
      exact (if_neg (Ne.symm hnot.2)).trans (hplaced.unnoted hnot.1)
  · have htest : ¬0 < (placed.1.chActive &&& channelBit bound).toNat := by
      rw [hplaced.active_eq]
      exact fun hpos ↦ hbit ((and_channelBit_pos hbound).mp hpos)
    rw [if_neg hbit, List.append_nil] at hactive
    rw [if_neg htest]
    exact ⟨hplaced.active_eq, hactive ▸ hplaced.seqCtr_eq, hactive ▸ hplaced.chState_eq,
      hactive ▸ hplaced.noted, hactive ▸ hplaced.unnoted⟩

/-- The loop over the channels. -/
theorem placed_foldl (previd : ℕ) {bound : ℕ} (hbound : bound ≤ 32)
    (hlength : bound ≤ d.chState.length) :
    Placed previd d bound
      ((List.range bound).foldl (placeChannel previd) ({ d with seqCtr := 0 }, 0)) := by
  induction bound with
  | zero => exact ⟨rfl, rfl, rfl, fun hmem ↦ absurd hmem List.not_mem_nil, fun _ ↦ rfl⟩
  | succ bound ih =>
    rw [List.range_succ, List.foldl_append]
    exact (ih (Nat.le_of_succ_le hbound) (Nat.le_of_succ_le hlength)).next hbound hlength

/-- The rest of the entries is cleared. -/
theorem nullOut_fields (before : List (Option ℕ)) (after : List (Option ℕ))
    (hstate : d.chState = before ++ after) (hctr : d.seqCtr = before.length) :
    (nullOut after.length d).chState = before ++ List.replicate after.length none ∧
      (nullOut after.length d).seqLen = d.seqLen ∧
      (nullOut after.length d).chActive = d.chActive := by
  induction after generalizing before d with
  | nil => exact ⟨hstate, rfl, rfl⟩
  | cons entry after ih =>
    have hset : d.chState.set d.seqCtr none = before ++ [none] ++ after := by
      rw [hstate, hctr, List.set_append_right _ _ le_rfl, Nat.sub_self, List.set_cons_zero,
        List.append_assoc]
      rfl
    have hnext := @ih { d with chState := d.chState.set d.seqCtr none, seqCtr := d.seqCtr + 1 }
      (before ++ [none]) hset (by rw [List.length_append, hctr]; rfl)
    rw [List.append_assoc] at hnext
    exact hnext

end Entries

/-! ### Updates -/

section Updates

variable {board : AdcBoard} {d : DevState} {id unread : ℕ}

/-- What every run keeps: there is an entry for each channel, the entries follow the active channels
as of the last update, and the counter is inside of the sequence or 0. -/
structure Sequenced (board : AdcBoard) (d : DevState) : Prop where
  length_eq : d.chState.length = board.numAdc
  follows : Follows board d.lastChActive d
  counter : d.seqCtr < d.seqLen ∨ d.seqCtr = 0

/-- What an update leaves that rewrites the sequence. -/
structure Rewritten (board : AdcBoard) (previd : ℕ) (d after : DevState) : Prop where
  follows : Follows board d.chActive after
  active_eq : after.lastChActive = d.chActive
  noted : previd ∈ activeChannels d.chActive board.numAdc →
    (activeChannels d.chActive board.numAdc)[after.seqCtr]? = some previd
  unnoted : previd ∉ activeChannels d.chActive board.numAdc → after.seqCtr = 0

/-- The device as the platform finds it. -/
theorem rewriteSequence_spec (previd : ℕ) (hlength : d.chState.length = board.numAdc) :
    Follows board d.chActive (rewriteSequence board previd d).1 ∧
      (rewriteSequence board previd d).1.chActive = d.chActive ∧
      (previd ∈ activeChannels d.chActive board.numAdc →
        (activeChannels d.chActive board.numAdc)[(rewriteSequence board previd d).2]? =
          some previd) ∧
      (previd ∉ activeChannels d.chActive board.numAdc →
        (rewriteSequence board previd d).2 = 0) := by
  have hplaced := placed_foldl previd board.fits hlength.ge
  unfold rewriteSequence
  dsimp only
  obtain ⟨placed, hfold⟩ : ∃ placed, (List.range board.numAdc).foldl
      (placeChannel previd) ({ d with seqCtr := 0 }, 0) = placed := ⟨_, rfl⟩
  rw [hfold] at hplaced ⊢
  have hrest : (d.chState.drop (activeChannels d.chActive board.numAdc).length).length =
      board.numAdc - placed.1.seqCtr := by
    rw [List.length_drop, hlength, hplaced.seqCtr_eq]
  obtain ⟨hstate, hlen, hactive⟩ := @nullOut_fields
    { placed.1 with seqLen := placed.1.seqCtr } _ _ hplaced.chState_eq
    (by rw [List.length_map]; exact hplaced.seqCtr_eq)
  rw [hrest] at hstate hlen hactive
  exact ⟨⟨hlen.trans hplaced.seqCtr_eq, hstate.trans (by rw [hlen])⟩,
    hactive.trans hplaced.active_eq, hplaced.noted, hplaced.unnoted⟩

theorem rewritten_update (unread : ℕ) (hlength : d.chState.length = board.numAdc)
    (hchanged : d.Changed) :
    Rewritten board (d.previd unread) d (adcUpdateDevSequence board unread d) := by
  obtain ⟨hfollows, hactive, hnoted, hunnoted⟩ :=
    @rewriteSequence_spec board d (d.previd unread) hlength
  unfold adcUpdateDevSequence
  rw [if_pos hchanged]
  exact ⟨⟨hfollows.1, hfollows.2⟩, hactive, hnoted, hunnoted⟩

/-- An update without a change changes nothing. -/
theorem update_eq_self (board : AdcBoard) (unread : ℕ)
    (hsame : ¬d.Changed) :
    adcUpdateDevSequence board unread d = d ∧ d.lastChActive = d.chActive := by
  refine ⟨if_neg hsame, ?_⟩
  by_contra hne
  exact hsame (.inl (Ne.symm hne))

theorem Follows.length_eq {active : BitVec 32} (hfollows : Follows board active d) :
    d.chState.length = board.numAdc := by
  have hle := length_activeChannels_le active board.numAdc
  rw [hfollows.2, List.length_append, List.length_map, List.length_replicate, hfollows.1]
  omega

/-- The entries are the active channels. -/
theorem Follows.entry_eq {active : BitVec 32} (hfollows : Follows board active d) (index : ℕ) :
    d.entry index = (activeChannels active board.numAdc)[index]? := by
  unfold DevState.entry
  rw [hfollows.2]
  by_cases hinside : index < (activeChannels active board.numAdc).length
  · rw [List.getElem?_append_left (by rwa [List.length_map]), List.getElem?_map]
    cases (activeChannels active board.numAdc)[index]? <;> rfl
  · rw [List.getElem?_append_right (by rw [List.length_map]; omega), List.getElem?_replicate,
      List.getElem?_eq_none (by omega)]
    split_ifs <;> rfl

theorem Follows.entry_ne_none_iff {active : BitVec 32} (hfollows : Follows board active d)
    (index : ℕ) : d.entry index ≠ none ↔ index < d.seqLen := by
  rw [hfollows.entry_eq, hfollows.1, Ne, List.getElem?_eq_none_iff, Nat.not_le]

theorem pointsTo_iff_entry : d.PointsTo id ↔ d.entry d.seqCtr = some id :=
  Option.join_eq_some_iff.symm

/-- The counter points to the entry of the channel. -/
theorem Follows.pointsTo_iff {active : BitVec 32} (hfollows : Follows board active d) :
    d.PointsTo id ↔ (activeChannels active board.numAdc)[d.seqCtr]? = some id := by
  rw [pointsTo_iff_entry, hfollows.entry_eq]

/-- The counter points to a channel exactly if the sequence is not empty. -/
theorem Sequenced.exists_pointsTo_iff (hseq : Sequenced board d) :
    (∃ id, d.PointsTo id) ↔ 0 < d.seqLen := by
  have hentry := hseq.follows.entry_ne_none_iff d.seqCtr
  have hcounter := hseq.counter
  simp only [pointsTo_iff_entry]
  rw [← Option.ne_none_iff_exists', hentry]
  omega

theorem previd_of_pointsTo (hpoints : d.PointsTo id) : d.previd unread = id := by
  unfold DevState.previd
  rw [pointsTo_iff_entry.mp hpoints]
  rfl

/-- An update keeps the entries and the counter in order, whatever it has read. -/
theorem Sequenced.update (hseq : Sequenced board d) (unread : ℕ) :
    Sequenced board (adcUpdateDevSequence board unread d) := by
  by_cases hchanged : d.Changed
  · have hrewritten := rewritten_update unread hseq.length_eq hchanged
    have hfollows := hrewritten.follows
    refine ⟨hfollows.length_eq, hrewritten.active_eq ▸ hfollows, ?_⟩
    by_cases hactive : d.previd unread ∈ activeChannels d.chActive board.numAdc
    · obtain ⟨hindex, -⟩ := List.getElem?_eq_some_iff.mp (hrewritten.noted hactive)
      exact .inl (hfollows.1 ▸ hindex)
    · exact .inr (hrewritten.unnoted hactive)
  · rw [(update_eq_self board unread hchanged).1]
    exact hseq

/-- No null pointer is dereferenced exactly if the sequence is not empty and the platform reads
only entries of the new one. -/
theorem Sequenced.notNull_iff (hseq : Sequenced board d) (unread : ℕ) :
    none ∉ dereferenced board unread d ↔ 0 < d.seqLen ∧ PlatformInside board unread d := by
  have hfirst : d.entry d.seqCtr ≠ none ↔ 0 < d.seqLen := by
    rw [hseq.follows.entry_ne_none_iff]
    have hcounter := hseq.counter
    omega
  unfold dereferenced PlatformInside
  rw [List.mem_cons, not_or, eq_comm, ← Ne, hfirst]
  refine and_congr_right fun _ ↦ ?_
  by_cases hchanged : d.Changed
  · obtain ⟨hfollows, -⟩ := @rewriteSequence_spec board d (d.previd unread) hseq.length_eq
    rw [if_pos hchanged, List.mem_map, not_exists]
    refine ⟨fun hnone _ index hread ↦ ?_, fun hinside index hread ↦ ?_⟩
    · rw [← hfollows.1, ← hfollows.entry_ne_none_iff]
      exact fun hnull ↦ hnone index ⟨hread, hnull⟩
    · exact (hfollows.entry_ne_none_iff index).mpr (hfollows.1 ▸ hinside hchanged index hread.1)
        hread.2
  · rw [if_neg hchanged]
    exact iff_of_true List.not_mem_nil fun hyes ↦ absurd hyes hchanged

/-- An update of a sequence that is not empty is right, if the platform reads nothing else. -/
theorem Sequenced.updateRight (hseq : Sequenced board d) (hpositive : 0 < d.seqLen)
    (hinside : PlatformInside board unread d) : UpdateRight board unread d := by
  obtain ⟨id, hpoints⟩ := hseq.exists_pointsTo_iff.mpr hpositive
  have hnotNull := (hseq.notNull_iff unread).mpr ⟨hpositive, hinside⟩
  have hafter := hseq.update unread
  have hsame : ∀ other, d.PointsTo other → other = id := fun other hother ↦
    Option.some.inj (Option.some.inj (hother.symm.trans hpoints))
  have hvalid : 0 < (adcUpdateDevSequence board unread d).seqLen →
      (adcUpdateDevSequence board unread d).seqCtr <
        (adcUpdateDevSequence board unread d).seqLen := by
    intro hsome
    rcases hafter.counter with hless | hzero
    · exact hless
    · rwa [hzero]
  by_cases hchanged : d.Changed
  · have hrewritten := rewritten_update unread hseq.length_eq hchanged
    rw [previd_of_pointsTo hpoints] at hrewritten
    refine ⟨hnotNull, hrewritten.follows, fun other hactive hother ↦ ?_, fun hnone ↦ ?_, hvalid⟩
    · rw [hsame other hother] at hactive ⊢
      exact hrewritten.follows.pointsTo_iff.mpr (hrewritten.noted hactive)
    · exact hrewritten.unnoted fun hactive ↦ hnone id hactive hpoints
  · obtain ⟨hself, hactive⟩ := update_eq_self board unread hchanged
    have hmember : id ∈ activeChannels d.chActive board.numAdc :=
      hactive ▸ List.mem_of_getElem? (hseq.follows.pointsTo_iff.mp hpoints)
    refine ⟨hnotNull, ?_, fun other _ hother ↦ ?_, fun hnone ↦ ?_, hvalid⟩
    · rw [hself, ← hactive]
      exact hseq.follows
    · rw [hself]
      exact hother
    · exact absurd hpoints (hnone id hmember)

theorem Sequenced.right_iff (hseq : Sequenced board d) (unread : ℕ) :
    UpdateRight board unread d ↔ 0 < d.seqLen ∧ PlatformInside board unread d :=
  ⟨fun hright ↦ (hseq.notNull_iff unread).mp hright.notNull,
    fun hboth ↦ hseq.updateRight hboth.1 hboth.2⟩

end Updates

/-! ### Runs -/

theorem activeChannels_zero (bound : ℕ) : activeChannels 0 bound = [] :=
  List.filter_eq_nil_iff.mpr fun id _ ↦ by simp

theorem sequenced_start (board : AdcBoard) : Sequenced board (.start board) where
  length_eq := List.length_replicate
  follows := ⟨by rw [DevState.start, activeChannels_zero]; rfl,
    by rw [DevState.start, activeChannels_zero]; rfl⟩
  counter := .inr rfl

/-- Every run keeps the entries and the counter in order. -/
theorem sequenced_of_reachable {board : AdcBoard} {d : DevState}
    (hreach : (adcDevice board).Reachable d) : Sequenced board d := by
  refine hreach.invariant (Sequenced board) ?_ ?_
  · rintro state rfl
    exact sequenced_start board
  · intro state event after hseq _ hstep
    cases event with
    | activate id =>
      obtain rfl := Option.some.inj hstep
      exact ⟨hseq.length_eq, hseq.follows, hseq.counter⟩
    | inactivate id =>
      obtain rfl := Option.some.inj hstep
      exact ⟨hseq.length_eq, hseq.follows, hseq.counter⟩
    | forceReseq =>
      obtain rfl := Option.some.inj hstep
      exact ⟨hseq.length_eq, hseq.follows, hseq.counter⟩
    | convert seqCtr =>
      obtain ⟨hcounter, hafter⟩ := Option.ite_none_right_eq_some.mp hstep
      obtain rfl := Option.some.inj hafter
      exact ⟨hseq.length_eq, hseq.follows, hcounter⟩
    | update unread =>
      obtain rfl := Option.some.inj hstep
      exact hseq.update unread

/-- In every state that a run reaches, whatever is read through null pointers: an update is right
exactly if the sequence is not empty and the platform reads only entries of the new one. -/
theorem updateRight_iff {board : AdcBoard} {d : DevState} (hreach : (adcDevice board).Reachable d)
    (unread : ℕ) :
    UpdateRight board unread d ↔ 0 < d.seqLen ∧ PlatformInside board unread d :=
  (sequenced_of_reachable hreach).right_iff unread

/-! ### Platforms -/

/-- `platform_adc_update_sequence` of most platforms: a loop over the sequence. -/
def loopUpdateSequence (d : DevState) : List ℕ × ℕ := (List.range d.seqLen, 0)

/-- `platform_adc_update_sequence` of `lm3s`, which takes the last entry apart. -/
def lm3sUpdateSequence (d : DevState) : List ℕ × ℕ :=
  (List.range (d.seqLen - 1) ++ [d.seqLen - 1], 0)

section Platforms

variable {board : AdcBoard} {d : DevState} (hreach : (adcDevice board).Reachable d) (unread : ℕ)
include hreach

/-- The loop reads only entries of the sequence. -/
theorem updateRight_loop_iff (hboard : board.updateSequence = loopUpdateSequence) :
    UpdateRight board unread d ↔ 0 < d.seqLen := by
  have hseq := sequenced_of_reachable hreach
  rw [hseq.right_iff, PlatformInside, hboard]
  refine and_iff_left fun _ index hread ↦ ?_
  rw [← (@rewriteSequence_spec board d (d.previd unread) hseq.length_eq).1.1]
  exact List.mem_range.mp hread

/-- On `lm3s` a channel has to be active as well where the sequence is rewritten. -/
theorem updateRight_lm3s_iff (hboard : board.updateSequence = lm3sUpdateSequence) :
    UpdateRight board unread d ↔
      0 < d.seqLen ∧ (d.Changed → activeChannels d.chActive board.numAdc ≠ []) := by
  have hseq := sequenced_of_reachable hreach
  have hnew := (@rewriteSequence_spec board d (d.previd unread) hseq.length_eq).1.1
  rw [hseq.right_iff, PlatformInside, hboard]
  refine and_congr_right fun _ ↦ imp_congr_right fun _ ↦ ?_
  unfold lm3sUpdateSequence
  rw [hnew, ← List.length_pos_iff]
  simp only [List.mem_append, List.mem_range, List.mem_singleton]
  refine ⟨fun hinside ↦ ?_, fun hpositive index hread ↦ by omega⟩
  exact Nat.zero_lt_of_lt (hinside _ (.inr rfl))

end Platforms

/-- A board of `lm3s` with four channels. -/
def fourChannels : AdcBoard := ⟨4, by decide, lm3sUpdateSequence⟩

/-- Channel 2 is active, and there has been no update yet. -/
def firstActive : DevState := (DevState.start fourChannels).activateChannel 2

theorem reachable_firstActive : (adcDevice fourChannels).Reachable firstActive :=
  .next (.start rfl) trivial (rfl : seqStep _ _ (.activate 2) = _)

/-- Channel 3 is active too, and channel 2 is in the sequence. -/
def secondActive : DevState :=
  (adcUpdateDevSequence fourChannels 0 firstActive).activateChannel 3

/-- The second update finds channel 2. -/
theorem updateRight_iff_second : UpdateRight fourChannels 0 secondActive := by
  have hreach : (adcDevice fourChannels).Reachable secondActive :=
    .next (.next reachable_firstActive trivial (rfl : seqStep _ _ (.update 0) = _)) trivial
      (rfl : seqStep _ _ (.activate 3) = _)
  exact (updateRight_iff hreach 0).mpr ⟨by decide, fun _ ↦ by decide⟩

/-- The first update reads through a null pointer. -/
theorem not_updateRight_first :
    (adcDevice fourChannels).Reachable firstActive ∧ ¬UpdateRight fourChannels 0 firstActive :=
  ⟨reachable_firstActive, fun hright ↦ hright.notNull List.mem_cons_self⟩

end Elua.Adc
