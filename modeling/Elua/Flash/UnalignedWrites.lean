import Elua.Foundation.BitFields
import Elua.Foundation.Ram

/-!
# Unaligned writes to the internal flash

`platform_flash_write` writes any range of bytes with a driver that programs whole write units only.
An unaligned head and an unaligned tail are read from the flash, changed and written back, and the
units between them are written as they are.

The driver is a parameter. Where it programs exactly its range, the bytes of the range are replaced
and nothing else is, and the driver is called for whole units only (`platformFlashWrite_exact`). -/

set_option autoImplicit false
set_option relaxedAutoImplicit false

namespace Elua.Flash

open Foundation

/-! ### The code -/

/-- `platform_s_flash_write`: the bytes at `from`, the address and the size, and what they make of
the flash. Nobody looks at what it returns. -/
abbrev FlashDriver := List UInt8 → Addr → BitVec 32 → Ram → Ram

/-- A call of the driver. -/
structure FlashCall where
  toaddr : Addr
  size : BitVec 32
  deriving DecidableEq

/-- The flash, and the calls of the driver so far. -/
structure FlashState where
  contents : Ram
  calls : List FlashCall

/-- A call of `platform_s_flash_write`. -/
def FlashState.sFlashWrite (driver : FlashDriver) (from' : List UInt8) (toaddr : Addr)
    (size : BitVec 32) (state : FlashState) : FlashState :=
  ⟨driver from' toaddr size state.contents, state.calls ++ [⟨toaddr, size⟩]⟩

/-- The variables of the loops: the unit that is filled, and the bytes and the size that are left. -/
structure Filling where
  tmpdata : List UInt8
  pfrom : List UInt8
  size : ℕ

/-- `for( ...; size && ( i < bound ); i ++, size --, pfrom ++ ) tmpdata[ i ] = *pfrom;`, which ends
with the bytes at the latest. -/
def fillUnit (bound : ℕ) (tmpdata : List UInt8) : (i : ℕ) → (pfrom : List UInt8) → (size : ℕ) → Filling
  | _, pfrom, 0 => ⟨tmpdata, pfrom, 0⟩
  | _, [], size => ⟨tmpdata, [], size⟩
  | i, byte :: pfrom, size + 1 =>
    if i < bound then fillUnit bound (tmpdata.set i byte) (i + 1) pfrom size
    else ⟨tmpdata, byte :: pfrom, size + 1⟩

/-- The final part of a block. -/
def writeTail (driver : FlashDriver) (blksize rest : BitVec 32) (pfrom : List UInt8) (toaddr : Addr)
    (size : BitVec 32) (state : FlashState) : FlashState :=
  if rest ≠ 0 then
    let tmpdata := loadBytes state.contents toaddr blksize.toNat
    let filling := fillUnit rest.toNat tmpdata 0 pfrom size.toNat
    state.sFlashWrite driver filling.tmpdata toaddr blksize
  else state

/-- The part of `platform_flash_write` from where the start address is a multiple of the unit. -/
def writeBlocks (driver : FlashDriver) (blksize : BitVec 32) (pfrom : List UInt8) (toaddr : Addr)
    (size : BitVec 32) (state : FlashState) : FlashState :=
  let blkmask := blksize - 1
  let rest := size &&& blkmask
  let temp := size &&& ~~~blkmask
  if temp ≠ 0 then
    writeTail driver blksize rest (pfrom.drop temp.toNat) (toaddr + temp) size
      (state.sFlashWrite driver pfrom toaddr temp)
  else writeTail driver blksize rest pfrom toaddr size state

/-- `platform_flash_write`: the flash that it leaves, and its result. -/
def platformFlashWrite (driver : FlashDriver) (blksize : BitVec 32) (from' : List UInt8)
    (toaddr : Addr) (size : BitVec 32) (state : FlashState) : FlashState × BitVec 32 :=
  let blkmask := blksize - 1
  if toaddr &&& blkmask ≠ 0 then
    let rest := toaddr &&& blkmask
    let temp := toaddr &&& ~~~blkmask
    let tmpdata := loadBytes state.contents temp blksize.toNat
    let filling := fillUnit blksize.toNat tmpdata rest.toNat from' size.toNat
    let written := state.sFlashWrite driver filling.tmpdata temp blksize
    if filling.size = 0 then (written, size)
    else
      (writeBlocks driver blksize filling.pfrom (temp + blksize) (BitVec.ofNat 32 filling.size)
        written, size)
  else (writeBlocks driver blksize from' toaddr size state, size)

/-! ### Exact writes -/

/-- The driver programs exactly its range, where the range is made of units that lie below
`2 ^ 32`. -/
def ProgramsExactly (driver : FlashDriver) (blksize : BitVec 32) : Prop :=
  ∀ (from' : List UInt8) (toaddr : Addr) (size : BitVec 32) (contents : Ram),
    blksize.toNat ∣ toaddr.toNat → blksize.toNat ∣ size.toNat →
    toaddr.toNat + size.toNat ≤ 2 ^ 32 → size.toNat ≤ from'.length →
    driver from' toaddr size contents =
      contents.replaced toaddr.toNat (from'.take size.toNat)

/-- A call is for whole units. -/
def FlashCall.Aligned (blksize : BitVec 32) (call : FlashCall) : Prop :=
  blksize.toNat ∣ call.toaddr.toNat ∧ blksize.toNat ∣ call.size.toNat

/-- The bytes from an address on have been replaced and nothing else has, by calls for whole
units. -/
structure Written (blksize : BitVec 32) (contents : Ram) (start : ℕ) (bytes : List UInt8)
    (state : FlashState) : Prop where
  contents_eq : state.contents = contents.replaced start bytes
  aligned : ∀ call ∈ state.calls, call.Aligned blksize

section Parts

variable {driver : FlashDriver} {blksize : BitVec 32} {contents : Ram} {start : ℕ}
  {bytes : List UInt8} {state : FlashState}

/-- A call of the driver appends to what has been written: `tmpdata` is what the call programs, and
`more` the bytes that it changes in front of which the earlier ones end. -/
theorem Written.sFlashWrite (hwritten : Written blksize contents start bytes state)
    (hdriver : ProgramsExactly driver blksize) {from' more : List UInt8} {toaddr : Addr}
    {size : BitVec 32} (htoaddr : blksize.toNat ∣ toaddr.toNat) (hsize : blksize.toNat ∣ size.toNat)
    (hbelow : toaddr.toNat + size.toNat ≤ 2 ^ 32) (hlength : size.toNat ≤ from'.length)
    (hmore : state.contents.replaced toaddr.toNat (from'.take size.toNat) =
      state.contents.replaced (start + bytes.length) more) :
    Written blksize contents start (bytes ++ more) (state.sFlashWrite driver from' toaddr size) := by
  constructor
  · calc driver from' toaddr size state.contents
        = state.contents.replaced toaddr.toNat (from'.take size.toNat) :=
          hdriver from' toaddr size state.contents htoaddr hsize hbelow hlength
      _ = (contents.replaced start bytes).replaced (start + bytes.length) more := by
          rw [hmore, hwritten.contents_eq]
      _ = contents.replaced start (bytes ++ more) := replaced_replaced contents start bytes more
  · intro call hcall
    rcases List.mem_append.mp hcall with hbefore | hlast
    · exact hwritten.aligned call hbefore
    · rw [List.mem_singleton.mp hlast]
      exact ⟨htoaddr, hsize⟩

/-- What the loops make of a unit. -/
theorem fillUnit_eq (bound : ℕ) (tmpdata : List UInt8) (i : ℕ) (pfrom : List UInt8) (size : ℕ)
    (henough : min size (bound - i) ≤ pfrom.length) :
    fillUnit bound tmpdata i pfrom size =
      ⟨overwrite tmpdata i (pfrom.take (min size (bound - i))), pfrom.drop (min size (bound - i)),
        size - min size (bound - i)⟩ := by
  fun_induction fillUnit bound tmpdata i pfrom size with
  | case1 tmpdata i pfrom => simp
  | case2 tmpdata i size hne =>
    have hcount : min size (bound - i) = 0 := Nat.le_zero.mp henough
    simp [hcount]
  | case3 tmpdata i byte pfrom size hbound ih =>
    have hcount : min (size + 1) (bound - i) = min size (bound - (i + 1)) + 1 := by omega
    rw [hcount, List.length_cons] at henough
    rw [ih (Nat.le_of_succ_le_succ henough), hcount, List.take_succ_cons, List.drop_succ_cons,
      overwrite_set, Nat.succ_sub_succ]
  | case4 tmpdata i byte pfrom size hbound =>
    have hcount : min (size + 1) (bound - i) = 0 := by omega
    simp [hcount]

/-- A unit that is read, changed in its middle and written back. -/
theorem Written.unit (hwritten : Written blksize contents start bytes state)
    (hdriver : ProgramsExactly driver blksize) {toaddr : Addr} {offset : ℕ} {more : List UInt8}
    (htoaddr : blksize.toNat ∣ toaddr.toNat) (hbelow : toaddr.toNat + blksize.toNat ≤ 2 ^ 32)
    (hoffset : toaddr.toNat + offset = start + bytes.length)
    (hmore : offset + more.length ≤ blksize.toNat) :
    Written blksize contents start (bytes ++ more) (state.sFlashWrite driver
      (overwrite (loadBytes state.contents toaddr blksize.toNat) offset more) toaddr blksize) := by
  have hlength : (overwrite (loadBytes state.contents toaddr blksize.toNat) offset more).length =
      blksize.toNat := by
    rw [length_overwrite, length_loadBytes]
  refine hwritten.sFlashWrite hdriver htoaddr dvd_rfl hbelow hlength.ge ?_
  rw [List.take_of_length_le hlength.le, replaced_overwrite hmore hbelow, hoffset]

/-- The memory is made of units. -/
theorem unit_dvd {log : ℕ} (hunit : blksize.toNat = 2 ^ log) : blksize.toNat ∣ 2 ^ 32 := by
  have hbelow := blksize.isLt
  rw [hunit] at hbelow ⊢
  exact pow_dvd_pow 2 ((Nat.pow_lt_pow_iff_right Nat.one_lt_two).mp hbelow).le

/-- A unit that begins below `2 ^ 32` ends there. -/
theorem unit_below {log : ℕ} (hunit : blksize.toNat = 2 ^ log) {toaddr : Addr}
    (htoaddr : blksize.toNat ∣ toaddr.toNat) : toaddr.toNat + blksize.toNat ≤ 2 ^ 32 := by
  obtain ⟨units, hunits⟩ := htoaddr
  obtain ⟨all, hall⟩ := unit_dvd hunit
  have hlt : blksize.toNat * units < blksize.toNat * all := by
    rw [← hunits, ← hall]
    exact toaddr.isLt
  have hle : units + 1 ≤ all := Nat.lt_of_mul_lt_mul_left hlt
  calc toaddr.toNat + blksize.toNat = blksize.toNat * (units + 1) := by rw [hunits]; rfl
    _ ≤ blksize.toNat * all := Nat.mul_le_mul_left _ hle
    _ = 2 ^ 32 := hall.symm

/-- The final part of a block. -/
theorem Written.tail (hwritten : Written blksize contents start bytes state)
    (hdriver : ProgramsExactly driver blksize) {log : ℕ} (hunit : blksize.toNat = 2 ^ log)
    {rest size : BitVec 32} {pfrom : List UInt8} {toaddr : Addr}
    (htoaddr : blksize.toNat ∣ toaddr.toNat) (hlength : pfrom.length = rest.toNat)
    (hsize : rest.toNat ≤ size.toNat) (hrest : rest.toNat ≤ blksize.toNat)
    (hoffset : rest.toNat ≠ 0 → toaddr.toNat = start + bytes.length) :
    Written blksize contents start (bytes ++ pfrom)
      (writeTail driver blksize rest pfrom toaddr size state) := by
  unfold writeTail
  by_cases hzero : rest.toNat = 0
  · obtain rfl : pfrom = [] := List.length_eq_zero_iff.mp (hlength.trans hzero)
    rw [if_neg (not_not.mpr (BitVec.eq_of_toNat_eq hzero)), List.append_nil]
    exact hwritten
  · have hne : rest ≠ 0 := by
      rintro rfl
      exact hzero rfl
    have hcount : min size.toNat (rest.toNat - 0) = pfrom.length := by omega
    have hfilling : (fillUnit rest.toNat (loadBytes state.contents toaddr blksize.toNat) 0 pfrom
        size.toNat).tmpdata =
        overwrite (loadBytes state.contents toaddr blksize.toNat) 0 pfrom := by
      rw [fillUnit_eq _ _ _ _ _ hcount.le, hcount, List.take_length]
    rw [if_pos hne]
    dsimp only
    rw [hfilling]
    refine hwritten.unit hdriver htoaddr (unit_below hunit htoaddr) (hoffset hzero) ?_
    omega

/-- The blocks and the final part. -/
theorem Written.blocks (hwritten : Written blksize contents start bytes state)
    (hdriver : ProgramsExactly driver blksize) {log : ℕ} (hunit : blksize.toNat = 2 ^ log)
    {size : BitVec 32} {pfrom : List UInt8} {toaddr : Addr}
    (htoaddr : blksize.toNat ∣ toaddr.toNat) (hlength : pfrom.length = size.toNat)
    (hoffset : toaddr.toNat = start + bytes.length) (hbelow : toaddr.toNat + size.toNat ≤ 2 ^ 32) :
    Written blksize contents start (bytes ++ pfrom)
      (writeBlocks driver blksize pfrom toaddr size state) := by
  have hrest := toNat_and_sub_one hunit size
  have htemp := toNat_and_not_sub_one hunit size
  have hpositive : 0 < blksize.toNat := hunit ▸ Nat.two_pow_pos log
  have hmod := Nat.mod_lt size.toNat hpositive
  have hmodle := Nat.mod_le size.toNat blksize.toNat
  unfold writeBlocks
  by_cases hzero : size &&& ~~~(blksize - 1) = 0
  · have hnone : (0 : BitVec 32).toNat = 0 := rfl
    rw [hzero, hnone] at htemp
    rw [if_neg (not_not.mpr hzero)]
    exact hwritten.tail hdriver hunit htoaddr (by omega) (by omega) (by omega) fun _ ↦ hoffset
  · have hdvd : blksize.toNat ∣ (size &&& ~~~(blksize - 1)).toNat := by
      rw [htemp]
      exact Nat.dvd_sub_mod _
    have hmiddle := hwritten.sFlashWrite hdriver htoaddr hdvd (by omega)
      (by omega : (size &&& ~~~(blksize - 1)).toNat ≤ pfrom.length) (by rw [hoffset])
    rw [if_pos hzero, ← List.take_append_drop (size &&& ~~~(blksize - 1)).toNat pfrom,
      ← List.append_assoc, List.take_append_drop]
    refine hmiddle.tail hdriver hunit ?_ ?_ (by omega) (by omega) ?_
    · rw [BitVec.toNat_add]
      exact (Nat.dvd_mod_iff (unit_dvd hunit)).mpr (Nat.dvd_add htoaddr hdvd)
    · rw [List.length_drop]
      omega
    · intro hne
      rw [List.length_append, List.length_take_of_le (by omega), BitVec.toNat_add,
        Nat.mod_eq_of_lt (by omega)]
      omega

/-- The unit in which the range begins. -/
theorem Written.head (hwritten : Written blksize contents start bytes state)
    (hdriver : ProgramsExactly driver blksize) {log : ℕ} (hunit : blksize.toNat = 2 ^ log)
    {toaddr : Addr} {more : List UInt8} (hoffset : toaddr.toNat = start + bytes.length)
    (hmore : toaddr.toNat % blksize.toNat + more.length ≤ blksize.toNat) :
    Written blksize contents start (bytes ++ more) (state.sFlashWrite driver
      (overwrite (loadBytes state.contents (toaddr &&& ~~~(blksize - 1)) blksize.toNat)
        (toaddr.toNat % blksize.toNat) more) (toaddr &&& ~~~(blksize - 1)) blksize) := by
  have htemp := toNat_and_not_sub_one hunit toaddr
  have hdvd : blksize.toNat ∣ (toaddr &&& ~~~(blksize - 1)).toNat := by
    rw [htemp]
    exact Nat.dvd_sub_mod _
  refine hwritten.unit hdriver hdvd (unit_below hunit hdvd) ?_ hmore
  rw [htemp, Nat.sub_add_cancel (Nat.mod_le _ _), hoffset]

end Parts

/-- A write of any range. -/
theorem written_platformFlashWrite {driver : FlashDriver} {blksize toaddr size : BitVec 32}
    {log : ℕ} {data : List UInt8} (hunit : blksize.toNat = 2 ^ log)
    (hdriver : ProgramsExactly driver blksize) (hdata : data.length = size.toNat)
    (hbelow : toaddr.toNat + size.toNat ≤ 2 ^ 32) (contents : Ram) :
    Written blksize contents toaddr.toNat data
      (platformFlashWrite driver blksize data toaddr size ⟨contents, []⟩).1 := by
  have hstart : Written blksize contents toaddr.toNat [] ⟨contents, []⟩ :=
    ⟨(replaced_nil contents _).symm, fun call hcall ↦ by cases hcall⟩
  have hrest := toNat_and_sub_one hunit toaddr
  have htemp := toNat_and_not_sub_one hunit toaddr
  have hmod := Nat.mod_lt toaddr.toNat (hunit ▸ Nat.two_pow_pos log : 0 < blksize.toNat)
  have hmodle := Nat.mod_le toaddr.toNat blksize.toNat
  unfold platformFlashWrite
  by_cases haligned : toaddr &&& (blksize - 1) = 0
  · have hdvd : blksize.toNat ∣ toaddr.toNat := by
      rw [haligned] at hrest
      exact Nat.dvd_of_mod_eq_zero hrest.symm
    rw [if_neg (not_not.mpr haligned)]
    exact hstart.blocks hdriver hunit hdvd hdata rfl hbelow
  · obtain ⟨count, hcount⟩ : ∃ count,
        count = min size.toNat (blksize.toNat - toaddr.toNat % blksize.toNat) := ⟨_, rfl⟩
    have hlength : (data.take count).length = count := List.length_take_of_le (by omega)
    have hinside : toaddr.toNat % blksize.toNat + (data.take count).length ≤ blksize.toNat := by
      omega
    have hhead := hstart.head hdriver hunit rfl hinside
    have hfilling := fillUnit_eq blksize.toNat
      (loadBytes contents (toaddr &&& ~~~(blksize - 1)) blksize.toNat)
      (toaddr.toNat % blksize.toNat) data size.toNat (by omega)
    rw [← hcount] at hfilling
    rw [if_pos haligned]
    dsimp only
    rw [hrest, hfilling]
    dsimp only
    by_cases hall : size.toNat - count = 0
    · rw [List.nil_append, List.take_of_length_le (by omega)] at hhead
      rw [if_pos hall, List.take_of_length_le (by omega)]
      exact hhead
    · have hnext : (toaddr &&& ~~~(blksize - 1)).toNat + blksize.toNat = toaddr.toNat + count := by
        omega
      have hleft : (BitVec.ofNat 32 (size.toNat - count)).toNat = size.toNat - count := by
        rw [BitVec.toNat_ofNat, Nat.mod_eq_of_lt (by omega)]
      have hsum : ((toaddr &&& ~~~(blksize - 1)) + blksize).toNat = toaddr.toNat + count := by
        rw [BitVec.toNat_add, hnext, Nat.mod_eq_of_lt (by omega)]
      have hdvd : blksize.toNat ∣ ((toaddr &&& ~~~(blksize - 1)) + blksize).toNat := by
        rw [hsum, ← hnext, htemp]
        exact Nat.dvd_add (Nat.dvd_sub_mod _) dvd_rfl
      have hrestdata : (data.drop count).length =
          (BitVec.ofNat 32 (size.toNat - count)).toNat := by
        rw [hleft, List.length_drop, hdata]
      have hblocks := hhead.blocks hdriver hunit hdvd hrestdata
        (by rw [hsum, List.nil_append, hlength]) (by omega)
      rw [if_neg hall]
      rw [List.nil_append, List.take_append_drop] at hblocks
      exact hblocks

/-- The size is returned. -/
theorem platformFlashWrite_snd (driver : FlashDriver) (blksize : BitVec 32) (from' : List UInt8)
    (toaddr : Addr) (size : BitVec 32) (state : FlashState) :
    (platformFlashWrite driver blksize from' toaddr size state).2 = size := by
  unfold platformFlashWrite
  dsimp only
  split_ifs <;> rfl

/-- A write of any range replaces exactly its bytes, returns the size and calls the driver for whole
units only. -/
theorem platformFlashWrite_exact {driver : FlashDriver} {blksize toaddr size : BitVec 32} {log : ℕ}
    {data : List UInt8} (hunit : blksize.toNat = 2 ^ log)
    (hdriver : ProgramsExactly driver blksize) (hdata : data.length = size.toNat)
    (hbelow : toaddr.toNat + size.toNat ≤ 2 ^ 32) (contents : Ram) :
    (platformFlashWrite driver blksize data toaddr size ⟨contents, []⟩).1.contents =
        contents.replaced toaddr.toNat data ∧
      (platformFlashWrite driver blksize data toaddr size ⟨contents, []⟩).2 = size ∧
      ∀ call ∈ (platformFlashWrite driver blksize data toaddr size ⟨contents, []⟩).1.calls,
        call.Aligned blksize := by
  have hwritten := written_platformFlashWrite hunit hdriver hdata hbelow contents
  exact ⟨hwritten.contents_eq, platformFlashWrite_snd _ _ _ _ _ _, hwritten.aligned⟩

/-- A driver that programs its range one byte after the other. -/
def programBytes : FlashDriver := fun from' toaddr size contents ↦
  contents.replaced toaddr.toNat (from'.take size.toNat)

/-- Five bytes from the second byte of a unit of four on: a head of three bytes and a tail of
two. -/
theorem platformFlashWrite_exact_headTail :
    (platformFlashWrite programBytes 4 [1, 2, 3, 4, 5] 0x1001 5 ⟨fun _ ↦ 0xFF, []⟩).1.contents =
        Ram.replaced (fun _ ↦ 0xFF) 0x1001 [1, 2, 3, 4, 5] ∧
      (platformFlashWrite programBytes 4 [1, 2, 3, 4, 5] 0x1001 5 ⟨fun _ ↦ 0xFF, []⟩).2 = 5 ∧
      ∀ call ∈ (platformFlashWrite programBytes 4 [1, 2, 3, 4, 5] 0x1001 5
        ⟨fun _ ↦ 0xFF, []⟩).1.calls, call.Aligned 4 :=
  platformFlashWrite_exact (by decide : (4 : BitVec 32).toNat = 2 ^ 2)
    (fun _ _ _ _ _ _ _ _ ↦ rfl) rfl (by decide) _

end Elua.Flash
