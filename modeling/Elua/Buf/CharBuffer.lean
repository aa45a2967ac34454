import Elua.Foundation.Overwrite
import Elua.Foundation.RingWindow
import Mathlib.Tactic.Common
import Mathlib.Tactic.Ring

/-!
# The character device buffers of `buf.c`

A `BufDesc` is one buffer descriptor: the logarithms of its size in bytes and of its element size,
the write pointer, the read pointer and the element count, all three 16 bits wide, and the bytes.
`bufSet`, `bufFlush` and `bufWrite` are the operations of the same name, and the read is given by
its separate steps (`bufReadUnderflows`, `bufReadDecrement`, `bufReadAdvance`), because an
interrupt may come in between.

The bytes form a ring of element slots. `RingAt desc start` says that the descriptor holds the
`count` elements that start at slot `start`, and `queued desc start` is their content, oldest
first. A write that finds room appends its element (`bufWrite_ringAt`, `queued_bufWrite`), and the
decrement of the count drops the oldest one (`bufReadDecrement_ringAt`, `queued_eq_cons`). The
full test of the code lets one element too many pass: `bufWrite_at_capacity` is what it does to a
full buffer.
-/

set_option autoImplicit false
set_option relaxedAutoImplicit false

namespace Elua.Buf

open Foundation

/-! ### The descriptor and its operations -/

/-- The status codes of the platform layer that the buffers return. -/
inductive PlatformStatus
  | ok
  | err
  | underflow
  deriving DecidableEq, Repr

/-- `BUF_SIZE_NONE`: the size code of a disabled buffer. -/
def bufSizeNone : ℕ := 0

/-- `buf_desc`: one buffer descriptor. -/
structure BufDesc where
  logsize : ℕ
  logdsize : ℕ
  wptr : ℕ
  rptr : ℕ
  count : ℕ
  buf : List UInt8
  deriving DecidableEq, Repr

/-- A descriptor as the loader leaves it: static storage, all zero. -/
def BufDesc.zero : BufDesc := ⟨0, 0, 0, 0, 0, []⟩

/-- `BUF_REALSIZE`: the number of elements the buffer holds. -/
def bufRealsize (desc : BufDesc) : ℕ := 1 <<< (desc.logsize - desc.logdsize)

/-- `BUF_BYTESIZE`: the number of bytes of the buffer. -/
def bufBytesize (desc : BufDesc) : ℕ := 1 <<< desc.logsize

/-- `BUF_REALDSIZE`: the number of bytes of an element. -/
def bufRealdsize (desc : BufDesc) : ℕ := 1 <<< desc.logdsize

/-- `BUF_MOD_INCR`: a pointer of 16 bits moved by one element, wrapped by masking. -/
def bufModIncr (desc : BufDesc) (pointer : ℕ) : ℕ :=
  ((pointer + 1 <<< desc.logdsize) &&& (1 <<< desc.logsize - 1)) % 2 ^ 16

/-- `DUFF_DEVICE_8`: how often the action runs. The `switch` enters the unrolled loop at the
remainder modulo eight and `_times` counts the passes. -/
def duffDevice8 (count : ℕ) : ℕ :=
  (if count &&& 7 = 0 then 8 else count &&& 7) + 8 * ((count + 7) >>> 3 - 1)

/-- `buf_set` with the memory that `realloc` returned, or `none` for `NULL`. -/
def bufSet (desc : BufDesc) (logsize logdsize : ℕ) (realloc : Option (List UInt8)) :
    PlatformStatus × BufDesc :=
  let sized := { desc with logdsize := logdsize, logsize := (logsize + logdsize) % 2 ^ 8 }
  match realloc with
  | some memory => (.ok, { sized with buf := memory })
  | none =>
    let cleared := { sized with
      buf := [], logsize := bufSizeNone, rptr := 0, wptr := 0, count := 0 }
    if logsize ≠ bufSizeNone then (.err, cleared) else (.ok, cleared)

/-- `buf_flush`: marks the buffer as empty. -/
def bufFlush (desc : BufDesc) : BufDesc := { desc with rptr := 0, wptr := 0, count := 0 }

/-- `buf_is_enabled`. -/
def bufIsEnabled (desc : BufDesc) : Bool := desc.logsize != bufSizeNone

/-- `buf_write`: the element is the run of bytes that `data` points to. -/
def bufWrite (desc : BufDesc) (data : List UInt8) : PlatformStatus × BufDesc :=
  if desc.logsize = bufSizeNone then (.err, desc)
  else if desc.count > bufRealsize desc then (.err, desc)
  else
    (.ok, { desc with
      buf := overwrite desc.buf desc.wptr (data.take (duffDevice8 (bufRealdsize desc)))
      wptr := bufModIncr desc desc.wptr
      count := (desc.count + 1) % 2 ^ 16 })

/-- The test at the start of `buf_read`: there is nothing to read. -/
def bufReadUnderflows (desc : BufDesc) : Bool :=
  desc.logsize == bufSizeNone || desc.count == 0

/-- The count update of `buf_read`, which runs with interrupts disabled. -/
def bufReadDecrement (desc : BufDesc) : BufDesc :=
  { desc with count := if desc.count = 0 then 2 ^ 16 - 1 else desc.count - 1 }

/-- The read pointer update at the end of `buf_read`. -/
def bufReadAdvance (desc : BufDesc) : BufDesc :=
  { desc with rptr := bufModIncr desc desc.rptr }

/-- Duff's device runs its action exactly as often as it is asked to, for a positive count. -/
theorem duffDevice8_of_pos {count : ℕ} (hcount : 0 < count) : duffDevice8 count = count := by
  have hmask : count &&& 7 = count % 8 := Nat.and_two_pow_sub_one_eq_mod count 3
  have hshift : (count + 7) >>> 3 = (count + 7) / 8 := Nat.shiftRight_eq_div_pow (count + 7) 3
  rw [duffDevice8, hmask, hshift]
  split_ifs with hzero <;> omega

theorem bufRealdsize_pos (desc : BufDesc) : 0 < bufRealdsize desc := by
  rw [bufRealdsize, Nat.one_shiftLeft]
  exact Nat.two_pow_pos _

theorem bufRealsize_pos (desc : BufDesc) : 0 < bufRealsize desc := by
  rw [bufRealsize, Nat.one_shiftLeft]
  exact Nat.two_pow_pos _

theorem bufBytesize_pos (desc : BufDesc) : 0 < bufBytesize desc := by
  rw [bufBytesize, Nat.one_shiftLeft]
  exact Nat.two_pow_pos _

/-- The mask of `BUF_MOD_INCR` wraps at the size of the buffer. -/
theorem bufModIncr_eq (desc : BufDesc) (pointer : ℕ) :
    bufModIncr desc pointer = (pointer + bufRealdsize desc) % bufBytesize desc % 2 ^ 16 := by
  simp only [bufModIncr, bufBytesize, bufRealdsize, Nat.one_shiftLeft,
    Nat.and_two_pow_sub_one_eq_mod]

/-! ### The ring of element slots -/

/-- The bytes of one element slot. -/
def slot (desc : BufDesc) (index : ℕ) : List UInt8 :=
  segment desc.buf (index * bufRealdsize desc) (bufRealdsize desc)

/-- The elements a descriptor holds when its oldest element stands in slot `start`. -/
def queued (desc : BufDesc) (start : ℕ) : List (List UInt8) :=
  ringWindow (slot desc) (bufRealsize desc) start desc.count

/-- The descriptor is an enabled buffer whose `count` elements start at slot `start`. -/
structure RingAt (desc : BufDesc) (start : ℕ) : Prop where
  enabled : desc.logsize ≠ bufSizeNone
  logdsize_le : desc.logdsize ≤ desc.logsize
  logsize_le : desc.logsize ≤ 15
  length_buf : desc.buf.length = bufBytesize desc
  wptr_eq : desc.wptr = (start + desc.count) % bufRealsize desc * bufRealdsize desc
  count_le : desc.count ≤ bufRealsize desc

/-- The bytes of a buffer are its slots. -/
theorem RingAt.bytesize_eq {desc : BufDesc} {start : ℕ} (hring : RingAt desc start) :
    bufBytesize desc = bufRealsize desc * bufRealdsize desc := by
  rw [bufBytesize, bufRealsize, bufRealdsize, Nat.one_shiftLeft, Nat.one_shiftLeft,
    Nat.one_shiftLeft, ← Nat.pow_add, Nat.sub_add_cancel hring.logdsize_le]

/-- An enabled buffer has less than `2 ^ 16` elements, so its count does not wrap. -/
theorem RingAt.realsize_lt {desc : BufDesc} {start : ℕ} (hring : RingAt desc start) :
    bufRealsize desc < 2 ^ 16 := by
  rw [bufRealsize, Nat.one_shiftLeft]
  exact Nat.pow_lt_pow_right (by omega) (by have := hring.logsize_le; omega)

/-- Moving the pointer of a slot by one element gives the pointer of the next slot. -/
theorem RingAt.modIncr_eq {desc : BufDesc} {start : ℕ} (hring : RingAt desc start) (index : ℕ) :
    bufModIncr desc (index % bufRealsize desc * bufRealdsize desc) =
      (index + 1) % bufRealsize desc * bufRealdsize desc := by
  have hsum : index % bufRealsize desc * bufRealdsize desc + bufRealdsize desc =
      (index % bufRealsize desc + 1) * bufRealdsize desc := by
    rw [Nat.add_mul, Nat.one_mul]
  have hsmall : bufBytesize desc ≤ 2 ^ 16 := by
    rw [bufBytesize, Nat.one_shiftLeft]
    exact Nat.pow_le_pow_right (by omega) (by have := hring.logsize_le; omega)
  rw [bufModIncr_eq,
    Nat.mod_eq_of_lt ((Nat.mod_lt _ (bufBytesize_pos desc)).trans_le hsmall), hsum,
    hring.bytesize_eq, Nat.mul_mod_mul_right, Nat.mod_add_mod]

/-- A slot of the ring lies inside the bytes. -/
theorem RingAt.slot_inside {desc : BufDesc} {start index : ℕ} (hring : RingAt desc start)
    (hindex : index < bufRealsize desc) :
    index * bufRealdsize desc + bufRealdsize desc ≤ desc.buf.length := by
  rw [hring.length_buf, hring.bytesize_eq, ← Nat.succ_mul]
  exact Nat.mul_le_mul_right _ hindex

/-- A slot of the ring holds one whole element. -/
theorem RingAt.length_slot {desc : BufDesc} {start index : ℕ} (hring : RingAt desc start)
    (hindex : index < bufRealsize desc) : (slot desc index).length = bufRealdsize desc :=
  length_segment_of_le (hring.slot_inside hindex)

/-! ### Writing -/

/-- A descriptor after an accepted write of a whole element. -/
def written (desc : BufDesc) (data : List UInt8) : BufDesc :=
  { desc with
    buf := overwrite desc.buf desc.wptr data
    wptr := bufModIncr desc desc.wptr
    count := (desc.count + 1) % 2 ^ 16 }

/-- What a write of a whole element does to an enabled buffer: the code refuses it only when the
count already exceeds the capacity. -/
theorem bufWrite_eq {desc : BufDesc} {start : ℕ} (hring : RingAt desc start) {data : List UInt8}
    (hdata : data.length = bufRealdsize desc) : bufWrite desc data = (.ok, written desc data) := by
  have hcount : ¬ desc.count > bufRealsize desc := Nat.not_lt.mpr hring.count_le
  have htake : data.take (duffDevice8 (bufRealdsize desc)) = data := by
    rw [duffDevice8_of_pos (bufRealdsize_pos desc), ← hdata, List.take_length]
  rw [bufWrite, if_neg hring.enabled, if_neg hcount, htake, written]

/-- The slots after a write: the written one holds the new element, the others are unchanged. -/
theorem slot_written {desc : BufDesc} {start : ℕ} (hring : RingAt desc start)
    {data : List UInt8} (hdata : data.length = bufRealdsize desc) (index : ℕ) :
    slot (written desc data) index =
      if index = (start + desc.count) % bufRealsize desc then data else slot desc index := by
  have hwritten := Nat.mod_lt (start + desc.count) (bufRealsize_pos desc)
  split_ifs with hindex
  · have hinside : desc.wptr + data.length ≤ desc.buf.length := by
      rw [hring.wptr_eq, hdata]
      exact hring.slot_inside hwritten
    rw [hindex, slot]
    change segment (overwrite desc.buf desc.wptr data)
      ((start + desc.count) % bufRealsize desc * bufRealdsize desc) (bufRealdsize desc) = data
    rw [← hring.wptr_eq, ← hdata]
    exact segment_overwrite_self hinside
  · refine segment_overwrite_of_disjoint desc.buf ?_
    change index * bufRealdsize desc + bufRealdsize desc ≤ desc.wptr ∨
      desc.wptr + data.length ≤ index * bufRealdsize desc
    rw [hring.wptr_eq, hdata, ← Nat.succ_mul, ← Nat.succ_mul]
    rcases Nat.lt_or_gt_of_ne hindex with hbelow | habove
    · exact .inl (Nat.mul_le_mul_right _ hbelow)
    · exact .inr (Nat.mul_le_mul_right _ habove)

/-- A write that finds room raises the count by one. -/
theorem written_count {desc : BufDesc} {start : ℕ} (hring : RingAt desc start)
    (hroom : desc.count < bufRealsize desc) (data : List UInt8) :
    (written desc data).count = desc.count + 1 := by
  have hlimit := hring.realsize_lt
  exact Nat.mod_eq_of_lt (by omega)

/-- An accepted write that finds room keeps the ring. -/
theorem bufWrite_ringAt {desc : BufDesc} {start : ℕ} (hring : RingAt desc start)
    (hroom : desc.count < bufRealsize desc) (data : List UInt8) :
    RingAt (written desc data) start where
  enabled := hring.enabled
  logdsize_le := hring.logdsize_le
  logsize_le := hring.logsize_le
  length_buf := (length_overwrite ..).trans hring.length_buf
  wptr_eq := by
    rw [written_count hring hroom]
    change bufModIncr desc desc.wptr =
      (start + (desc.count + 1)) % bufRealsize desc * bufRealdsize desc
    rw [hring.wptr_eq, hring.modIncr_eq, Nat.add_assoc]
  count_le := by
    rw [written_count hring hroom]
    exact hroom

/-- An accepted write that finds room appends its element to the queue. -/
theorem queued_bufWrite {desc : BufDesc} {start : ℕ} (hring : RingAt desc start)
    (hroom : desc.count < bufRealsize desc) {data : List UInt8}
    (hdata : data.length = bufRealdsize desc) :
    queued (written desc data) start = queued desc start ++ [data] := by
  rw [queued, written_count hring hroom]
  change ringWindow (slot (written desc data)) (bufRealsize desc) start (desc.count + 1) = _
  rw [ringWindow_append (slot desc) hroom fun position _ hposition ↦ by
    rw [slot_written hring hdata, if_neg hposition]]
  rw [slot_written hring hdata, if_pos rfl, queued]

/-- What the code does to a full buffer: the write is accepted, overwrites the oldest element and
lifts the count above the capacity. -/
theorem bufWrite_at_capacity {desc : BufDesc} {start : ℕ} (hring : RingAt desc start)
    (hfull : desc.count = bufRealsize desc) {data : List UInt8}
    (hdata : data.length = bufRealdsize desc) :
    (bufWrite desc data).1 = .ok ∧ bufRealsize desc < (bufWrite desc data).2.count ∧
      slot (bufWrite desc data).2 (start % bufRealsize desc) = data := by
  have hlimit := hring.realsize_lt
  rw [bufWrite_eq hring hdata]
  refine ⟨rfl, ?_, ?_⟩
  · change bufRealsize desc < (desc.count + 1) % 2 ^ 16
    have hpower : bufRealsize desc ≤ 2 ^ 15 := by
      rw [bufRealsize, Nat.one_shiftLeft]
      exact Nat.pow_le_pow_right (by omega) (by have := hring.logsize_le; omega)
    rw [Nat.mod_eq_of_lt (by omega)]
    omega
  · rw [slot_written hring hdata, hfull, Nat.add_mod_right, if_pos rfl]

/-! ### Reading -/

/-- A positive count decreases by one. -/
theorem bufReadDecrement_count {desc : BufDesc} (hcount : 0 < desc.count) :
    (bufReadDecrement desc).count = desc.count - 1 :=
  if_neg hcount.ne'

/-- The oldest element of a nonempty queue stands in the slot the queue starts at. -/
theorem queued_eq_cons {desc : BufDesc} (start : ℕ) (hcount : 0 < desc.count) :
    queued desc start = slot desc (start % bufRealsize desc) ::
      queued (bufReadDecrement desc) (start + 1) := by
  rw [queued, queued, bufReadDecrement_count hcount]
  change _ = slot desc (start % bufRealsize desc) ::
    ringWindow (slot desc) (bufRealsize desc) (start + 1) (desc.count - 1)
  rw [← ringWindow_succ, Nat.sub_add_cancel hcount]

/-- The decrement of a positive count drops the oldest element from the ring. -/
theorem bufReadDecrement_ringAt {desc : BufDesc} {start : ℕ} (hring : RingAt desc start)
    (hcount : 0 < desc.count) : RingAt (bufReadDecrement desc) (start + 1) := by
  refine ⟨hring.enabled, hring.logdsize_le, hring.logsize_le, hring.length_buf, ?_, ?_⟩
  · rw [bufReadDecrement_count hcount]
    change desc.wptr = (start + 1 + (desc.count - 1)) % bufRealsize desc * bufRealdsize desc
    rw [hring.wptr_eq, show start + 1 + (desc.count - 1) = start + desc.count by omega]
  · rw [bufReadDecrement_count hcount]
    exact (Nat.sub_le _ _).trans hring.count_le

/-- The read pointer plays no part in the ring. -/
theorem bufReadAdvance_ringAt {desc : BufDesc} {start : ℕ} (hring : RingAt desc start) :
    RingAt (bufReadAdvance desc) start :=
  ⟨hring.enabled, hring.logdsize_le, hring.logsize_le, hring.length_buf, hring.wptr_eq,
    hring.count_le⟩

/-- The read pointer plays no part in the content of the ring. -/
theorem queued_bufReadAdvance (desc : BufDesc) (start : ℕ) :
    queued (bufReadAdvance desc) start = queued desc start := rfl

/-- The start of a ring may be reduced modulo the capacity. -/
theorem RingAt.mod {desc : BufDesc} {start : ℕ} (hring : RingAt desc start) :
    RingAt desc (start % bufRealsize desc) :=
  { hring with wptr_eq := by rw [Nat.mod_add_mod, hring.wptr_eq] }

/-- Reducing the start of a ring modulo the capacity does not change what it holds. -/
theorem queued_mod (desc : BufDesc) (start : ℕ) :
    queued desc (start % bufRealsize desc) = queued desc start :=
  ringWindow_mod ..

/-- A buffer that `buf_set` enabled on a zeroed descriptor is an empty ring at slot 0. -/
theorem bufSet_ringAt {logsize logdsize : ℕ} {memory : List UInt8}
    (henabled : 0 < logsize + logdsize) (hsize : logsize + logdsize ≤ 15)
    (hmemory : memory.length = 2 ^ (logsize + logdsize)) :
    RingAt (bufSet .zero logsize logdsize (some memory)).2 0 := by
  have hmod : (logsize + logdsize) % 2 ^ 8 = logsize + logdsize := Nat.mod_eq_of_lt (by omega)
  simp only [bufSet, hmod]
  refine ⟨?_, Nat.le_add_left .., hsize, ?_, ?_, Nat.zero_le _⟩
  · exact Nat.ne_of_gt henabled
  · rw [bufBytesize, Nat.one_shiftLeft]
    exact hmemory
  · simp [BufDesc.zero]

end Elua.Buf
