import Elua.Buf.CharBuffer
import Elua.Foundation.Transducer
import Elua.Foundation.TransitionSystem

/-!
# Resizing a character device buffer

`buf_set` gives a buffer a new size and a new element size. It stores both and reallocates the
bytes, but only a failed allocation resets the positions and the count. `SetRight` is what a resize
must give: a `Consistent` descriptor, an enabled buffer exactly if one was asked for and allocated,
and later accesses that touch bytes of the allocation only.

`Resizable` lists the buffers and sizes for which that happens: an empty buffer whose positions fit,
elements of the old size that do not wrap around, and a full buffer that stays full. `setRight_iff`
says that there are no others, in every state of a run in which no write meets a full buffer and
no position passes 16 bits. -/

set_option autoImplicit false
set_option relaxedAutoImplicit false

namespace Elua.Buf

open Foundation TransitionSystem

/-! ### The calls -/

/-- `buf_read`, with the bytes that it stores at `data`. -/
def bufRead (desc : BufDesc) : PlatformStatus × List UInt8 × BufDesc :=
  if bufReadUnderflows desc then (.underflow, [], desc)
  else (.ok, segment desc.buf desc.rptr (duffDevice8 (bufRealdsize desc)),
    bufReadAdvance (bufReadDecrement desc))

/-- A call of `buf_write` or `buf_read`. -/
inductive BufAccess
  | write (data : List UInt8)
  | read
  deriving DecidableEq, Repr

/-- A call of any function of `buf.c` that changes a descriptor. -/
inductive BufCall
  | set (logsize logdsize : ℕ) (realloc : Option (List UInt8))
  | flush
  | access (call : BufAccess)
  deriving DecidableEq, Repr

/-- An access, with the bytes of the buffer that it touches. -/
def bufAccess (desc : BufDesc) : BufAccess → BufDesc × List ℕ
  | .write data =>
    ((bufWrite desc data).2, if (bufWrite desc data).1 = .ok then
      List.range' desc.wptr (duffDevice8 (bufRealdsize desc)) else [])
  | .read =>
    ((bufRead desc).2.2, if (bufRead desc).1 = .ok then
      List.range' desc.rptr (duffDevice8 (bufRealdsize desc)) else [])

/-- The descriptor after a call. -/
def bufCall (desc : BufDesc) : BufCall → BufDesc
  | .set logsize logdsize realloc => (bufSet desc logsize logdsize realloc).2
  | .flush => bufFlush desc
  | .access call => (bufAccess desc call).1

/-- A size for which `BUF_BYTESIZE` is defined, and what `realloc` can return for it. -/
def ValidSet (logsize logdsize : ℕ) (realloc : Option (List UInt8)) : Prop :=
  logsize + logdsize < 31 ∧ ∀ memory ∈ realloc, memory.length = 2 ^ (logsize + logdsize)

/-! ### What a resize must give -/

/-- A position inside the allocation, or at its start when there is none. -/
def Inside (desc : BufDesc) (pointer : ℕ) : Prop :=
  pointer < desc.buf.length ∨ desc.buf = [] ∧ pointer = 0

/-- The positions stand at elements of the allocation, and the count is the number of elements from
the read position to the write position. -/
structure Consistent (desc : BufDesc) : Prop where
  rptr_inside : Inside desc desc.rptr
  wptr_inside : Inside desc desc.wptr
  rptr_dvd : bufRealdsize desc ∣ desc.rptr
  wptr_dvd : bufRealdsize desc ∣ desc.wptr
  between : desc.wptr = (desc.rptr + desc.count * bufRealdsize desc) % bufBytesize desc
  count_le : desc.count * bufRealdsize desc ≤ bufBytesize desc

/-- A call of `buf_set` leaves a consistent descriptor, enables the buffer exactly if that was asked
for and the allocation succeeded, and no later accesses touch bytes outside the allocation. -/
structure SetRight (desc : BufDesc) (logsize logdsize : ℕ) (realloc : Option (List UInt8)) :
    Prop where
  consistent : Consistent (bufSet desc logsize logdsize realloc).2
  enabled : bufIsEnabled (bufSet desc logsize logdsize realloc).2 = true ↔
    logsize ≠ bufSizeNone ∧ realloc.isSome = true
  inside : ∀ accesses,
    ∀ byte ∈ (runTransducer bufAccess (bufSet desc logsize logdsize realloc).2 accesses).2,
      byte < (bufSet desc logsize logdsize realloc).2.buf.length

/-! ### The runs and resizes without a defect -/

/-- The elements of a buffer are at the same places for a new size and element size: there are none
and the read position fits, or the element size stays and they do not wrap around in one of two
different sizes, or they fill the buffer before and after. -/
inductive ElementsStay (desc : BufDesc) (logsize logdsize : ℕ) : Prop
  | empty (hcount : desc.count = 0) (hdvd : 2 ^ logdsize ∣ desc.rptr)
      (hrptr : desc.rptr < 2 ^ (logsize + logdsize))
  | sameSize (hlogdsize : desc.logdsize = logdsize) (hlogsize : desc.logsize = logsize + logdsize)
  | unwrapped (hlogdsize : desc.logdsize = logdsize)
      (hold : desc.rptr + desc.count * 2 ^ logdsize < 2 ^ desc.logsize)
      (hnew : desc.rptr + desc.count * 2 ^ logdsize < 2 ^ (logsize + logdsize))
  | full (hold : desc.count * 2 ^ desc.logdsize = 2 ^ desc.logsize)
      (hnew : desc.count * 2 ^ logdsize = 2 ^ (logsize + logdsize))
      (hdvd : 2 ^ logdsize ∣ desc.rptr) (hrptr : desc.rptr < 2 ^ (logsize + logdsize))

/-- The allocation fails, or the buffer is disabled with elements of one byte only and the elements
stay where they are. -/
def Resizable (desc : BufDesc) (logsize logdsize : ℕ) (realloc : Option (List UInt8)) : Prop :=
  realloc = none ∨
    (logsize = bufSizeNone → logdsize = 0) ∧ ElementsStay desc logsize logdsize

/-- A position that moves by one element stays in 16 bits. -/
def StaysIn16 (desc : BufDesc) (pointer : ℕ) : Prop :=
  bufBytesize desc ≤ 2 ^ 16 ∨ pointer + bufRealdsize desc < 2 ^ 16

/-- A write meets a full buffer never, resizes are as they should be, and positions and count stay
in 16 bits. -/
def Permitted (desc : BufDesc) : BufCall → Prop
  | .set logsize logdsize realloc =>
    ValidSet logsize logdsize realloc ∧ Resizable desc logsize logdsize realloc
  | .flush => True
  | .access (.write _) => bufIsEnabled desc = true →
    desc.count < bufRealsize desc ∧ desc.count + 1 < 2 ^ 16 ∧ StaysIn16 desc desc.wptr
  | .access .read => StaysIn16 desc desc.rptr

/-- A descriptor, as the loader leaves it, and the calls for it. -/
def bufDescSystem : TransitionSystem BufDesc BufCall where
  initial desc := desc = .zero
  step desc call after := after = bufCall desc call

/-! ### Accesses stay in the allocation -/

section Accesses

variable {desc : BufDesc}

/-- The bytes of a descriptor are there, its elements fit into them, and both positions stand at an
element. -/
structure Aligned (desc : BufDesc) : Prop where
  length_buf : desc.buf.length = bufBytesize desc
  logdsize_le : desc.logdsize ≤ desc.logsize
  rptr_lt : desc.rptr < bufBytesize desc
  wptr_lt : desc.wptr < bufBytesize desc
  rptr_dvd : bufRealdsize desc ∣ desc.rptr
  wptr_dvd : bufRealdsize desc ∣ desc.wptr

theorem bufRealdsize_dvd (hsize : desc.logdsize ≤ desc.logsize) :
    bufRealdsize desc ∣ bufBytesize desc := by
  rw [bufRealdsize, bufBytesize, Nat.one_shiftLeft, Nat.one_shiftLeft]
  exact Nat.pow_dvd_pow 2 hsize

/-- A remainder by a power of two keeps the divisors that are powers of two. -/
theorem two_pow_dvd_mod {small number : ℕ} (large : ℕ) (hdvd : 2 ^ small ∣ number) :
    2 ^ small ∣ number % 2 ^ large := by
  rcases Nat.le_total small large with hle | hle
  · exact (Nat.dvd_mod_iff (Nat.pow_dvd_pow 2 hle)).2 hdvd
  · rw [Nat.mod_eq_zero_of_dvd ((Nat.pow_dvd_pow 2 hle).trans hdvd)]
    exact Nat.dvd_zero _

/-- A position that moves stays in the buffer. -/
theorem bufModIncr_lt (pointer : ℕ) : bufModIncr desc pointer < bufBytesize desc := by
  rw [bufModIncr_eq]
  exact (Nat.mod_le _ _).trans_lt (Nat.mod_lt _ (bufBytesize_pos desc))

/-- A position that moves stays at an element. -/
theorem bufRealdsize_dvd_bufModIncr {pointer : ℕ} (hdvd : bufRealdsize desc ∣ pointer) :
    bufRealdsize desc ∣ bufModIncr desc pointer := by
  rw [bufModIncr_eq]
  simp only [bufRealdsize, bufBytesize, Nat.one_shiftLeft] at hdvd ⊢
  exact two_pow_dvd_mod _ (two_pow_dvd_mod _ (Nat.dvd_add_self_right.2 hdvd))

/-- The bytes of the element at an aligned position are in the buffer. -/
theorem lt_of_mem_element {pointer byte : ℕ} (hsize : desc.logdsize ≤ desc.logsize)
    (hlt : pointer < bufBytesize desc) (hdvd : bufRealdsize desc ∣ pointer)
    (hbyte : byte ∈ List.range' pointer (duffDevice8 (bufRealdsize desc))) :
    byte < bufBytesize desc := by
  rw [duffDevice8_of_pos (bufRealdsize_pos desc), List.mem_range'_1] at hbyte
  have hend : pointer + bufRealdsize desc ≤ bufBytesize desc :=
    Nat.le_of_lt_add_of_dvd (by omega) (Nat.dvd_add_self_right.2 hdvd) (bufRealdsize_dvd hsize)
  omega

/-- What an accepted or refused write does to the fields other than the bytes. -/
theorem bufWrite_cases (desc : BufDesc) (data : List UInt8) :
    ((bufWrite desc data).1 ≠ .ok ∧ (bufWrite desc data).2 = desc) ∨
      (bufWrite desc data).1 = .ok ∧ desc.logsize ≠ bufSizeNone ∧ ∃ memory,
        memory.length = desc.buf.length ∧ (bufWrite desc data).2 = { desc with
          buf := memory
          wptr := bufModIncr desc desc.wptr
          count := (desc.count + 1) % 2 ^ 16 } := by
  unfold bufWrite
  split_ifs with hdisabled hfull
  · exact .inl ⟨nofun, rfl⟩
  · exact .inl ⟨nofun, rfl⟩
  · exact .inr ⟨rfl, hdisabled, _, length_overwrite .., rfl⟩

/-- What an accepted or refused read does. -/
theorem bufRead_cases (desc : BufDesc) :
    ((bufRead desc).1 ≠ .ok ∧ (bufRead desc).2.2 = desc) ∨
      (bufRead desc).1 = .ok ∧ desc.logsize ≠ bufSizeNone ∧ 0 < desc.count ∧
        (bufRead desc).2.2 =
          { desc with rptr := bufModIncr desc desc.rptr, count := desc.count - 1 } := by
  unfold bufRead
  split_ifs with hunderflows
  · exact .inl ⟨nofun, rfl⟩
  · simp only [bufReadUnderflows, Bool.or_eq_true, beq_iff_eq, not_or] at hunderflows
    refine .inr ⟨rfl, hunderflows.1, Nat.pos_of_ne_zero hunderflows.2, ?_⟩
    simp only [bufReadAdvance, bufReadDecrement, if_neg hunderflows.2]
    rfl

/-- An access keeps the positions at elements and the length of the bytes. -/
theorem aligned_bufAccess (haligned : Aligned desc) (access : BufAccess) :
    Aligned (bufAccess desc access).1 ∧
      (bufAccess desc access).1.buf.length = desc.buf.length := by
  cases access with
  | write data =>
    simp only [bufAccess]
    rcases bufWrite_cases desc data with ⟨-, hsame⟩ | ⟨-, -, memory, hmemory, hwritten⟩
    · rw [hsame]
      exact ⟨haligned, rfl⟩
    · rw [hwritten]
      exact ⟨⟨hmemory.trans haligned.length_buf, haligned.logdsize_le, haligned.rptr_lt,
        bufModIncr_lt _, haligned.rptr_dvd, bufRealdsize_dvd_bufModIncr haligned.wptr_dvd⟩, hmemory⟩
  | read =>
    simp only [bufAccess]
    rcases bufRead_cases desc with ⟨-, hsame⟩ | ⟨-, -, -, hread⟩
    · rw [hsame]
      exact ⟨haligned, rfl⟩
    · rw [hread]
      exact ⟨⟨haligned.length_buf, haligned.logdsize_le, bufModIncr_lt _, haligned.wptr_lt,
        bufRealdsize_dvd_bufModIncr haligned.rptr_dvd, haligned.wptr_dvd⟩, rfl⟩

/-- An access with its positions at elements touches bytes of the buffer. -/
theorem bufAccess_inside (haligned : Aligned desc) {access : BufAccess} {byte : ℕ}
    (hbyte : byte ∈ (bufAccess desc access).2) : byte < desc.buf.length := by
  rw [haligned.length_buf]
  cases access with
  | write data =>
    simp only [bufAccess] at hbyte
    split_ifs at hbyte with hok
    · exact lt_of_mem_element haligned.logdsize_le haligned.wptr_lt haligned.wptr_dvd hbyte
    · exact absurd hbyte List.not_mem_nil
  | read =>
    simp only [bufAccess] at hbyte
    split_ifs at hbyte with hok
    · exact lt_of_mem_element haligned.logdsize_le haligned.rptr_lt haligned.rptr_dvd hbyte
    · exact absurd hbyte List.not_mem_nil

/-- No access touches bytes outside the buffer. -/
theorem accesses_inside (haligned : Aligned desc) (accesses : List BufAccess) :
    ∀ byte ∈ (runTransducer bufAccess desc accesses).2, byte < desc.buf.length := by
  intro byte hbyte
  obtain ⟨before, access, after, -, htouched⟩ := mem_runTransducer.1 hbyte
  have hkeeps : ∀ other access, Aligned other ∧ other.buf.length = desc.buf.length →
      Aligned (bufAccess other access).1 ∧
        (bufAccess other access).1.buf.length = desc.buf.length := by
    rintro other access ⟨hother, hlength⟩
    exact ⟨(aligned_bufAccess hother access).1, (aligned_bufAccess hother access).2.trans hlength⟩
  have hbefore := runTransducer_invariant hkeeps ⟨haligned, rfl⟩ before
  rw [← hbefore.2]
  exact bufAccess_inside hbefore.1 htouched

/-- A disabled buffer refuses every access. -/
theorem accesses_disabled (hdisabled : desc.logsize = bufSizeNone) (accesses : List BufAccess) :
    (runTransducer bufAccess desc accesses).2 = [] := by
  have hrefused : ∀ access, bufAccess desc access = (desc, []) := by
    intro access
    cases access <;> simp [bufAccess, bufWrite, bufRead, bufReadUnderflows, hdisabled]
  induction accesses with
  | nil => rfl
  | cons access accesses ih => rw [runTransducer_cons, hrefused, ih, List.append_nil]

end Accesses

/-! ### What a resize gives -/

section Resizes

variable {desc : BufDesc} {logsize logdsize : ℕ}

/-- A consistent descriptor whose memory is as its sizes say. -/
structure Sound (desc : BufDesc) : Prop extends Consistent desc where
  memory : desc.buf = [] ∧ desc.logsize = bufSizeNone ∧ desc.count = 0 ∨
    desc.buf.length = bufBytesize desc ∧ desc.logdsize ≤ desc.logsize

/-- With its memory there, a descriptor is consistent if the read position, the count and the place
of the write position are. -/
theorem consistent_iff_of_memory (hlength : desc.buf.length = bufBytesize desc)
    (hsize : desc.logdsize ≤ desc.logsize) :
    Consistent desc ↔ desc.rptr < bufBytesize desc ∧ bufRealdsize desc ∣ desc.rptr ∧
      desc.count * bufRealdsize desc ≤ bufBytesize desc ∧
        desc.wptr = (desc.rptr + desc.count * bufRealdsize desc) % bufBytesize desc := by
  constructor
  · intro hconsistent
    refine ⟨?_, hconsistent.rptr_dvd, hconsistent.count_le, hconsistent.between⟩
    rcases hconsistent.rptr_inside with hinside | ⟨-, hzero⟩
    · exact hlength ▸ hinside
    · exact hzero ▸ bufBytesize_pos desc
  · rintro ⟨hlt, hdvd, hcount, hbetween⟩
    have hwptr : desc.wptr < desc.buf.length := by
      rw [hbetween, hlength]
      exact Nat.mod_lt _ (bufBytesize_pos desc)
    have hwptr_dvd : bufRealdsize desc ∣ desc.wptr := by
      rw [hbetween, Nat.dvd_mod_iff (bufRealdsize_dvd hsize)]
      exact Nat.dvd_add hdvd (Nat.dvd_mul_left _ _)
    exact ⟨.inl (hlength ▸ hlt), .inl hwptr, hdvd, hwptr_dvd, hbetween, hcount⟩

/-- The read position of a sound descriptor is below the size. -/
theorem Sound.rptr_lt (hsound : Sound desc) : desc.rptr < bufBytesize desc := by
  rcases hsound.rptr_inside with hinside | ⟨-, hzero⟩
  · rcases hsound.memory with ⟨hempty, -⟩ | ⟨hlength, -⟩
    · simp [hempty] at hinside
    · exact hlength ▸ hinside
  · exact hzero ▸ bufBytesize_pos desc

/-- The elements of a sound descriptor stay at their places exactly if the new sizes give them the
same end. -/
theorem Sound.elementsStay_iff (hsound : Sound desc) :
    ElementsStay desc logsize logdsize ↔
      desc.rptr < 2 ^ (logsize + logdsize) ∧ 2 ^ logdsize ∣ desc.rptr ∧
        desc.count * 2 ^ logdsize ≤ 2 ^ (logsize + logdsize) ∧
          desc.wptr = (desc.rptr + desc.count * 2 ^ logdsize) % 2 ^ (logsize + logdsize) := by
  have hrptr := hsound.rptr_lt
  have hdvd := hsound.rptr_dvd
  have hcount := hsound.count_le
  have hbetween := hsound.between
  simp only [bufBytesize, bufRealdsize, Nat.one_shiftLeft] at hrptr hdvd hcount hbetween
  rw [hbetween]
  constructor
  · intro hstay
    have hfits : desc.rptr < 2 ^ (logsize + logdsize) ∧ 2 ^ logdsize ∣ desc.rptr := by
      cases hstay with
      | empty _ hdvd hlt => exact ⟨hlt, hdvd⟩
      | sameSize hlogdsize hlogsize => exact ⟨hlogsize ▸ hrptr, hlogdsize ▸ hdvd⟩
      | unwrapped hlogdsize _ hnew => exact ⟨by omega, hlogdsize ▸ hdvd⟩
      | full _ _ hdvd hlt => exact ⟨hlt, hdvd⟩
    refine ⟨hfits.1, hfits.2, (same_end_iff hrptr hfits.1 hcount).2 ?_⟩
    cases hstay with
    | empty hzero => exact .inl hzero
    | sameSize hlogdsize hlogsize => exact .inr (.inl ⟨hlogdsize, hlogsize⟩)
    | unwrapped hlogdsize hold hnew => exact .inr (.inr (.inl ⟨hlogdsize, hlogdsize ▸ hold, hnew⟩))
    | full hold hnew => exact .inr (.inr (.inr ⟨hold, hnew⟩))
  · rintro ⟨hlt, hdvd', hends⟩
    rcases (same_end_iff hrptr hlt hcount).1 hends with
      hzero | ⟨hlogdsize, hlogsize⟩ | ⟨hlogdsize, hold, hnew⟩ | ⟨hold, hnew⟩
    · exact .empty hzero hdvd' hlt
    · exact .sameSize hlogdsize hlogsize
    · exact .unwrapped hlogdsize (hlogdsize ▸ hold) hnew
    · exact .full hold hnew hdvd' hlt

/-- The descriptor that a successful allocation leaves. -/
theorem bufSet_some (hsize : logsize + logdsize < 31) (memory : List UInt8) :
    (bufSet desc logsize logdsize (some memory)).2 =
      { desc with logdsize := logdsize, logsize := logsize + logdsize, buf := memory } := by
  rw [bufSet, Nat.mod_eq_of_lt (by omega)]

/-- The descriptor that a failed allocation leaves. -/
theorem bufSet_none :
    (bufSet desc logsize logdsize none).2 = ⟨bufSizeNone, logdsize, 0, 0, 0, []⟩ := by
  unfold bufSet
  split_ifs <;> rfl

/-- A descriptor without a buffer is sound. -/
theorem sound_none (logdsize : ℕ) : Sound ⟨bufSizeNone, logdsize, 0, 0, 0, []⟩ where
  rptr_inside := .inr ⟨rfl, rfl⟩
  wptr_inside := .inr ⟨rfl, rfl⟩
  rptr_dvd := Nat.dvd_zero _
  wptr_dvd := Nat.dvd_zero _
  between := by simp
  count_le := by simp
  memory := .inl ⟨rfl, rfl, rfl⟩

/-- A failed allocation disables the buffer. -/
theorem setRight_none : SetRight desc logsize logdsize none where
  consistent := by
    rw [bufSet_none]
    exact (sound_none logdsize).toConsistent
  enabled := by
    rw [bufSet_none]
    simp [bufIsEnabled]
  inside := by
    intro accesses byte hbyte
    rw [bufSet_none, accesses_disabled rfl] at hbyte
    exact absurd hbyte List.not_mem_nil

/-- A successful allocation leaves a consistent descriptor exactly if the elements stay where they
are. -/
theorem Sound.consistent_bufSet_iff (hsound : Sound desc) (hsize : logsize + logdsize < 31)
    {memory : List UInt8} (hmemory : memory.length = 2 ^ (logsize + logdsize)) :
    Consistent (bufSet desc logsize logdsize (some memory)).2 ↔
      ElementsStay desc logsize logdsize := by
  rw [bufSet_some hsize, hsound.elementsStay_iff, consistent_iff_of_memory]
  · simp only [bufBytesize, bufRealdsize, Nat.one_shiftLeft]
  · rw [bufBytesize, Nat.one_shiftLeft, hmemory]
  · exact Nat.le_add_left _ _

/-- What a call of `buf_set` gives in a sound descriptor. -/
theorem Sound.setRight_iff_resizable (hsound : Sound desc) {realloc : Option (List UInt8)}
    (hset : ValidSet logsize logdsize realloc) :
    SetRight desc logsize logdsize realloc ↔ Resizable desc logsize logdsize realloc := by
  cases realloc with
  | none => exact ⟨fun _ ↦ .inl rfl, fun _ ↦ setRight_none⟩
  | some memory =>
    have hmemory := hset.2 memory rfl
    have hstays := hsound.consistent_bufSet_iff hset.1 hmemory
    have henabled : (bufIsEnabled (bufSet desc logsize logdsize (some memory)).2 = true ↔
        logsize ≠ bufSizeNone ∧ (some memory).isSome = true) ↔
          (logsize = bufSizeNone → logdsize = 0) := by
      rw [bufSet_some hset.1]
      simp only [bufIsEnabled, bufSizeNone, bne_iff_ne, Option.isSome_some, and_true]
      omega
    constructor
    · intro hright
      exact .inr ⟨henabled.1 hright.enabled, hstays.1 hright.consistent⟩
    · rintro (hnone | ⟨hbytes, hstay⟩)
      · exact absurd hnone nofun
      · have hconsistent := hstays.2 hstay
        refine ⟨hconsistent, henabled.2 hbytes, accesses_inside ?_⟩
        obtain ⟨hrptr, -⟩ := hsound.elementsStay_iff.1 hstay
        rw [bufSet_some hset.1] at hconsistent ⊢
        have hlength : memory.length = 1 <<< (logsize + logdsize) := by
          rw [hmemory, Nat.one_shiftLeft]
        refine ⟨hlength, Nat.le_add_left _ _, ?_, ?_, hconsistent.rptr_dvd, hconsistent.wptr_dvd⟩
        · rw [bufBytesize, Nat.one_shiftLeft]
          exact hrptr
        · rw [hconsistent.between]
          exact Nat.mod_lt _ (bufBytesize_pos _)

end Resizes

/-! ### Runs -/

section Runs

variable {desc : BufDesc}

/-- An enabled sound descriptor has its memory. -/
theorem Sound.memory_of_enabled (hsound : Sound desc) (henabled : desc.logsize ≠ bufSizeNone) :
    desc.buf.length = bufBytesize desc ∧ desc.logdsize ≤ desc.logsize := by
  rcases hsound.memory with ⟨-, hdisabled, -⟩ | hmemory
  · exact absurd hdisabled henabled
  · exact hmemory

/-- In 16 bits a position moves by one element around the buffer. -/
theorem bufModIncr_of_staysIn16 {pointer : ℕ} (hstays : StaysIn16 desc pointer) :
    bufModIncr desc pointer = (pointer + bufRealdsize desc) % bufBytesize desc := by
  rw [bufModIncr_eq]
  rcases hstays with hsmall | hlow
  · exact Nat.mod_eq_of_lt ((Nat.mod_lt _ (bufBytesize_pos desc)).trans_le hsmall)
  · exact Nat.mod_eq_of_lt ((Nat.mod_le _ _).trans_lt hlow)

/-- The bytes of a buffer are those of its elements. -/
theorem realsize_mul_realdsize (hsize : desc.logdsize ≤ desc.logsize) :
    bufRealsize desc * bufRealdsize desc = bufBytesize desc := by
  simp only [bufRealsize, bufRealdsize, bufBytesize, Nat.one_shiftLeft]
  rw [← Nat.pow_add, Nat.sub_add_cancel hsize]

/-- A flush leaves a sound descriptor. -/
theorem Sound.bufFlush (hsound : Sound desc) : Sound (bufFlush desc) := by
  have hinside : Inside desc 0 := by
    rcases hsound.memory with ⟨hempty, -⟩ | ⟨hlength, -⟩
    · exact .inr ⟨hempty, rfl⟩
    · exact .inl (hlength ▸ bufBytesize_pos desc)
  refine ⟨⟨hinside, hinside, Nat.dvd_zero _, Nat.dvd_zero _, ?_, ?_⟩, ?_⟩
  · simp [Buf.bufFlush]
  · simp [Buf.bufFlush]
  · exact hsound.memory.imp (fun hnone ↦ ⟨hnone.1, hnone.2.1, rfl⟩) id

/-- A permitted write leaves a sound descriptor. -/
theorem Sound.bufWrite (hsound : Sound desc) (data : List UInt8)
    (hpermitted : Permitted desc (.access (.write data))) : Sound (bufWrite desc data).2 := by
  rcases bufWrite_cases desc data with ⟨-, hsame⟩ | ⟨-, henabled, memory, hmemory, hwritten⟩
  · rw [hsame]
    exact hsound
  · obtain ⟨hlength, hsize⟩ := hsound.memory_of_enabled henabled
    obtain ⟨hroom, hcount, hstays⟩ := hpermitted (by simpa [bufIsEnabled] using henabled)
    rw [hwritten, Nat.mod_eq_of_lt hcount]
    refine ⟨?_, .inr ⟨hmemory.trans hlength, hsize⟩⟩
    refine (consistent_iff_of_memory ?_ ?_).2 ⟨hsound.rptr_lt, hsound.rptr_dvd, ?_, ?_⟩
    · exact hmemory.trans hlength
    · exact hsize
    · change (desc.count + 1) * bufRealdsize desc ≤ bufBytesize desc
      rw [← realsize_mul_realdsize hsize]
      exact Nat.mul_le_mul_right _ hroom
    · change bufModIncr desc desc.wptr =
        (desc.rptr + (desc.count + 1) * bufRealdsize desc) % bufBytesize desc
      rw [bufModIncr_of_staysIn16 hstays, hsound.between, Nat.mod_add_mod, Nat.succ_mul,
        Nat.add_assoc]

/-- A permitted read leaves a sound descriptor. -/
theorem Sound.bufRead (hsound : Sound desc) (hstays : StaysIn16 desc desc.rptr) :
    Sound (bufRead desc).2.2 := by
  rcases bufRead_cases desc with ⟨-, hsame⟩ | ⟨-, henabled, hcount, hread⟩
  · rw [hsame]
    exact hsound
  · obtain ⟨hlength, hsize⟩ := hsound.memory_of_enabled henabled
    rw [hread]
    refine ⟨?_, .inr ⟨hlength, hsize⟩⟩
    refine (consistent_iff_of_memory ?_ ?_).2
      ⟨@bufModIncr_lt desc _, bufRealdsize_dvd_bufModIncr hsound.rptr_dvd, ?_, ?_⟩
    · exact hlength
    · exact hsize
    · exact (Nat.mul_le_mul_right _ (Nat.sub_le _ _)).trans hsound.count_le
    · change desc.wptr = (bufModIncr desc desc.rptr +
        (desc.count - 1) * bufRealdsize desc) % bufBytesize desc
      have hnext : bufRealdsize desc + (desc.count - 1) * bufRealdsize desc =
          desc.count * bufRealdsize desc := by
        rw [Nat.add_comm, ← Nat.succ_mul, Nat.succ_eq_add_one, Nat.sub_add_cancel hcount]
      rw [bufModIncr_of_staysIn16 hstays, Nat.mod_add_mod, Nat.add_assoc, hnext, hsound.between]

/-- A permitted call leaves a sound descriptor. -/
theorem Sound.bufCall (hsound : Sound desc) {call : BufCall} (hpermitted : Permitted desc call) :
    Sound (bufCall desc call) := by
  cases call with
  | set logsize logdsize realloc =>
    obtain ⟨hset, hresizable⟩ := hpermitted
    have hright := (hsound.setRight_iff_resizable hset).2 hresizable
    refine ⟨hright.consistent, ?_⟩
    cases realloc with
    | none =>
      simp only [Buf.bufCall, bufSet_none]
      exact .inl ⟨trivial, trivial, trivial⟩
    | some memory =>
      simp only [Buf.bufCall, bufSet_some hset.1]
      refine .inr ⟨?_, Nat.le_add_left _ _⟩
      rw [bufBytesize, Nat.one_shiftLeft]
      exact hset.2 memory rfl
  | flush => exact hsound.bufFlush
  | access access =>
    cases access with
    | write data => exact hsound.bufWrite data hpermitted
    | read => exact hsound.bufRead hpermitted

/-- Every state of a permitted run is sound. -/
theorem sound_of_reachable (hreach : bufDescSystem.ReachableUnder Permitted desc) : Sound desc := by
  refine hreach.invariant Sound ?_ ?_
  · rintro state rfl
    exact sound_none 0
  · rintro state call after hsound hpermitted rfl
    exact hsound.bufCall hpermitted

end Runs

/-- In every state of a run in which no write meets a full buffer, no position passes 16 bits and
all resizes are of the listed kinds, the next resize gives what it must exactly if it is of one of
these kinds. -/
theorem setRight_iff {desc : BufDesc} (hreach : bufDescSystem.ReachableUnder Permitted desc)
    {logsize logdsize : ℕ} {realloc : Option (List UInt8)}
    (hset : ValidSet logsize logdsize realloc) :
    SetRight desc logsize logdsize realloc ↔ Resizable desc logsize logdsize realloc :=
  (sound_of_reachable hreach).setRight_iff_resizable hset

/-- The bytes of four elements of one byte. -/
def fourBytes : Option (List UInt8) := some [0, 0, 0, 0]

/-- A buffer of four elements that holds the second of two. -/
def holdsSecond : BufDesc := ⟨2, 0, 2, 1, 1, [1, 2, 0, 0]⟩

theorem reachable_holdsSecond : bufDescSystem.ReachableUnder Permitted holdsSecond := by
  have hvalid : ValidSet 2 0 fourBytes := by
    refine ⟨by decide, ?_⟩
    rintro memory ⟨⟩
    rfl
  have hstart : bufDescSystem.ReachableUnder Permitted .zero := .start rfl
  have hset := hstart.andThen (.set 2 0 fourBytes)
    ⟨hvalid, .inr ⟨by decide, .empty rfl (by decide) (by decide)⟩⟩ rfl
  have hfirst := hset.andThen (.access (.write [1]))
    (fun _ ↦ ⟨by decide, by decide, .inl (by decide)⟩) rfl
  have hsecond := hfirst.andThen (.access (.write [2]))
    (fun _ ↦ ⟨by decide, by decide, .inl (by decide)⟩) rfl
  exact hsecond.andThen (.access .read) (.inl (by decide)) rfl

/-- A buffer that holds an element grows. -/
theorem setRight_grown : SetRight holdsSecond 3 0 (some [1, 2, 0, 0, 0, 0, 0, 0]) := by
  refine (setRight_iff reachable_holdsSecond ⟨by decide, ?_⟩).2 (.inr ⟨by decide, ?_⟩)
  · rintro memory ⟨⟩
    rfl
  · exact .unwrapped rfl (by decide) (by decide)

/-- A buffer of four elements in which three have come and gone. -/
def drained : BufDesc := ⟨2, 0, 3, 3, 0, [1, 2, 3, 0]⟩

/-- The drained buffer arises by three writes and three reads; when it shrinks to two elements, its
positions are outside. -/
theorem not_setRight_shrunk :
    ([.set 2 0 fourBytes, .access (.write [1]), .access (.write [2]), .access (.write [3]),
        .access .read, .access .read, .access .read] : List BufCall).foldl bufCall .zero = drained ∧
      ValidSet 1 0 (some [1, 2]) ∧ ¬SetRight drained 1 0 (some [1, 2]) := by
  refine ⟨by decide, ⟨by decide, ?_⟩, fun hright ↦ ?_⟩
  · rintro memory ⟨⟩
    rfl
  · have hinside := hright.consistent.rptr_inside
    simp [Inside, bufSet, drained] at hinside

end Elua.Buf
