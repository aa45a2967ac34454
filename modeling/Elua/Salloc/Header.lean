import Elua.Foundation.ByteMemory

/-!
# Block headers

A block of the heap begins with two words. The first is the address of the next block, the second
that of the previous one, both divided by eight; the top bit of the first word says that the block
is taken. The functions are those of the source, on a memory of bytes.

`HeaderAt mem addr taken next prev` says what a header holds. Each write to a header changes one of
the three and nothing outside the eight bytes of the header.
-/

set_option autoImplicit false
set_option relaxedAutoImplicit false

namespace Elua.Salloc

open Foundation

/-! ### Constants -/

/-- Sizes and addresses of blocks are multiples of this. -/
def dynSizeMult : ℕ := 8

/-- Links are shifted by this. -/
def dynSizeMultShift : ℕ := 3

/-- The size of a block header. -/
def dynHeaderSize : ℕ := 8

/-- The least size of what is split off a block. -/
def dynMinSplitSize : ℕ := 16

/-- The bit that marks a block as taken. -/
def takenBit : ℕ := 0x80000000

/-- The bits of a link. -/
def linkMask : ℕ := 0x7FFFFFFF

/-! ### The functions of the source -/

/-- Get actual size. -/
def sActSize (size : ℕ) : ℕ :=
  if size &&& (dynSizeMult - 1) ≠ 0 then
    (((size >>> dynSizeMultShift) + 1) <<< dynSizeMultShift) % 2 ^ 32
  else size

/-- Get next block. -/
def sGetNextBlock (mem : Memory) (ptr : ℕ) : ℕ :=
  ((load32 mem ptr &&& linkMask) <<< dynSizeMultShift) % 2 ^ 32

/-- Set next block. -/
def sSetNextBlock (mem : Memory) (ptr next : ℕ) : Memory :=
  store32 mem ptr ((load32 mem ptr &&& takenBit) ||| (next >>> dynSizeMultShift))

/-- Get prev block. -/
def sGetPrevBlock (mem : Memory) (ptr : ℕ) : ℕ :=
  ((load32 mem (ptr + 4) &&& linkMask) <<< dynSizeMultShift) % 2 ^ 32

/-- Set prev block. -/
def sSetPrevBlock (mem : Memory) (ptr prev : ℕ) : Memory :=
  store32 mem (ptr + 4) ((load32 mem (ptr + 4) &&& takenBit) ||| (prev >>> dynSizeMultShift))

/-- Get block size. -/
def sGetBlockSize (mem : Memory) (ptr : ℕ) : ℕ :=
  let next := sGetNextBlock mem ptr
  if next ≠ 0 then sub32 next ptr else 0

/-- Mark block as taken. -/
def sMarkBlockTaken (mem : Memory) (addr : ℕ) : Memory :=
  store32 mem addr (load32 mem addr ||| takenBit)

/-- Mark block as free. -/
def sMarkBlockFree (mem : Memory) (addr : ℕ) : Memory :=
  store32 mem addr (load32 mem addr &&& linkMask)

/-- Is the block free? -/
def sIsBlockFree (mem : Memory) (addr : ℕ) : Bool := load32 mem addr &&& takenBit == 0

/-- Create a new block with the given neighbours. -/
def sCreateNewBlock (mem : Memory) (addr next prev : ℕ) : Memory :=
  store32 (store32 mem addr (next >>> dynSizeMultShift)) (addr + 4) (prev >>> dynSizeMultShift)

/-! ### Link words -/

/-- An address that a link can hold. -/
def Linkable (addr : ℕ) : Prop := addr % 8 = 0 ∧ addr < 2 ^ 32

/-- The address in a link word. -/
theorem link_eq (word : ℕ) :
    ((word &&& linkMask) <<< dynSizeMultShift) % 2 ^ 32 = word % 2 ^ 31 * 8 % 2 ^ 32 := by
  rw [show word &&& linkMask = word % 2 ^ 31 from Nat.and_two_pow_sub_one_eq_mod word 31,
    Nat.shiftLeft_eq]
  rfl

/-- Whether a link word is marked. -/
theorem free_eq (word : ℕ) : (word &&& takenBit == 0) = !word.testBit 31 := by
  rw [show takenBit = 2 ^ 31 from rfl, Nat.and_two_pow]
  cases word.testBit 31 <;> rfl

theorem testBit_of_lt {value : ℕ} (hvalue : value < 2 ^ 31) : value.testBit 31 = false :=
  Nat.testBit_lt_two_pow hvalue

/-- A link word with a new link: its low bits and its mark. -/
theorem setLink_spec {word addr : ℕ} (haddr : Linkable addr) :
    let value := (word &&& takenBit) ||| (addr >>> dynSizeMultShift)
    value < 2 ^ 32 ∧ value % 2 ^ 31 * 8 % 2 ^ 32 = addr ∧ value.testBit 31 = word.testBit 31 := by
  obtain ⟨hmod, hlt⟩ := haddr
  have hshift : addr >>> dynSizeMultShift = addr / 8 := Nat.shiftRight_eq_div_pow addr 3
  have hlink : addr / 8 < 2 ^ 31 := by omega
  simp only [hshift]
  refine ⟨Nat.or_lt_two_pow (Nat.and_lt_two_pow _ (by decide)) (by omega), ?_, ?_⟩
  · rw [Nat.or_mod_two_pow, Nat.and_mod_two_pow, show takenBit % 2 ^ 31 = 0 from rfl, Nat.and_zero,
      Nat.zero_or, Nat.mod_eq_of_lt hlink]
    omega
  · rw [Nat.testBit_or, Nat.testBit_and, testBit_of_lt hlink, show takenBit = 2 ^ 31 from rfl,
      Nat.testBit_two_pow_self, Bool.and_true, Bool.or_false]

/-- A marked link word. -/
theorem markTaken_spec {word : ℕ} (hword : word < 2 ^ 32) :
    (word ||| takenBit) < 2 ^ 32 ∧ (word ||| takenBit) % 2 ^ 31 = word % 2 ^ 31 ∧
      (word ||| takenBit).testBit 31 = true := by
  refine ⟨Nat.or_lt_two_pow hword (by decide), ?_, ?_⟩
  · rw [Nat.or_mod_two_pow, show takenBit % 2 ^ 31 = 0 from rfl, Nat.or_zero]
  · rw [Nat.testBit_or, show takenBit = 2 ^ 31 from rfl, Nat.testBit_two_pow_self, Bool.or_true]

/-- A link word without its mark. -/
theorem markFree_spec (word : ℕ) :
    (word &&& linkMask) < 2 ^ 32 ∧ (word &&& linkMask) % 2 ^ 31 = word % 2 ^ 31 ∧
      (word &&& linkMask).testBit 31 = false := by
  have hmask : word &&& linkMask = word % 2 ^ 31 := Nat.and_two_pow_sub_one_eq_mod word 31
  rw [hmask]
  exact ⟨by omega, Nat.mod_mod _ _, testBit_of_lt (by omega)⟩

/-! ### Headers -/

/-- What the header at an address holds. -/
structure HeaderAt (mem : Memory) (addr : ℕ) (taken : Bool) (next prev : ℕ) : Prop where
  next_eq : sGetNextBlock mem addr = next
  prev_eq : sGetPrevBlock mem addr = prev
  free_eq : sIsBlockFree mem addr = !taken

section Headers

variable {mem other : Memory} {addr next prev : ℕ} {taken : Bool}

/-- Every eight bytes are a header. -/
theorem headerAt_self (mem : Memory) (addr : ℕ) :
    HeaderAt mem addr (!sIsBlockFree mem addr) (sGetNextBlock mem addr) (sGetPrevBlock mem addr) :=
  ⟨rfl, rfl, (Bool.not_not _).symm⟩

/-- A header depends on its eight bytes. -/
theorem HeaderAt.congr (hheader : HeaderAt mem addr taken next prev)
    (hagree : AgreeOn mem other addr (addr + 8)) : HeaderAt other addr taken next prev := by
  have hfirst := load32_congr (hagree.mono (Nat.le_refl addr) (by omega))
  have hsecond := load32_congr (hagree.mono (Nat.le_add_right addr 4) (by omega))
  obtain ⟨hnext, hprev, hfree⟩ := hheader
  refine ⟨?_, ?_, ?_⟩
  · rw [← hnext, sGetNextBlock, sGetNextBlock, hfirst]
  · rw [← hprev, sGetPrevBlock, sGetPrevBlock, hsecond]
  · rw [← hfree, sIsBlockFree, sIsBlockFree, hfirst]

theorem HeaderAt.setNext (hheader : HeaderAt mem addr taken next prev) {target : ℕ}
    (htarget : Linkable target) : HeaderAt (sSetNextBlock mem addr target) addr taken target prev := by
  obtain ⟨hlt, hlink, hmark⟩ := @setLink_spec (load32 mem addr) target htarget
  obtain ⟨-, hprev, hfree⟩ := hheader
  refine ⟨?_, ?_, ?_⟩
  · rw [sGetNextBlock, sSetNextBlock, load32_store32 hlt, link_eq, hlink]
  · rw [← hprev, sGetPrevBlock, sSetNextBlock, load32_store32_of_apart (.inr (Nat.le_refl _)),
      sGetPrevBlock]
  · rw [← hfree, sIsBlockFree, sSetNextBlock, load32_store32 hlt, Salloc.free_eq, hmark,
      sIsBlockFree, Salloc.free_eq]

theorem HeaderAt.setPrev (hheader : HeaderAt mem addr taken next prev) {target : ℕ}
    (htarget : Linkable target) : HeaderAt (sSetPrevBlock mem addr target) addr taken next target := by
  obtain ⟨hlt, hlink, -⟩ := @setLink_spec (load32 mem (addr + 4)) target htarget
  obtain ⟨hnext, -, hfree⟩ := hheader
  refine ⟨?_, ?_, ?_⟩
  · rw [← hnext, sGetNextBlock, sSetPrevBlock, load32_store32_of_apart (.inl (Nat.le_refl _)),
      sGetNextBlock]
  · rw [sGetPrevBlock, sSetPrevBlock, load32_store32 hlt, link_eq, hlink]
  · rw [← hfree, sIsBlockFree, sSetPrevBlock, load32_store32_of_apart (.inl (Nat.le_refl _)),
      sIsBlockFree]

theorem HeaderAt.markTaken (hheader : HeaderAt mem addr taken next prev) :
    HeaderAt (sMarkBlockTaken mem addr) addr true next prev := by
  obtain ⟨hlt, hlink, hmark⟩ := markTaken_spec (load32_lt mem addr)
  obtain ⟨hnext, hprev, -⟩ := hheader
  refine ⟨?_, ?_, ?_⟩
  · rw [← hnext, sGetNextBlock, sMarkBlockTaken, load32_store32 hlt, link_eq, hlink, sGetNextBlock,
      link_eq]
  · rw [← hprev, sGetPrevBlock, sMarkBlockTaken, load32_store32_of_apart (.inr (Nat.le_refl _)),
      sGetPrevBlock]
  · rw [sIsBlockFree, sMarkBlockTaken, load32_store32 hlt, Salloc.free_eq, hmark]

theorem HeaderAt.markFree (hheader : HeaderAt mem addr taken next prev) :
    HeaderAt (sMarkBlockFree mem addr) addr false next prev := by
  obtain ⟨hlt, hlink, hmark⟩ := markFree_spec (load32 mem addr)
  obtain ⟨hnext, hprev, -⟩ := hheader
  refine ⟨?_, ?_, ?_⟩
  · rw [← hnext, sGetNextBlock, sMarkBlockFree, load32_store32 hlt, link_eq, hlink, sGetNextBlock,
      link_eq]
  · rw [← hprev, sGetPrevBlock, sMarkBlockFree, load32_store32_of_apart (.inr (Nat.le_refl _)),
      sGetPrevBlock]
  · rw [sIsBlockFree, sMarkBlockFree, load32_store32 hlt, Salloc.free_eq, hmark]

/-- A new block is free and has its neighbours. -/
theorem headerAt_createNewBlock (mem : Memory) (addr : ℕ) (hnext : Linkable next)
    (hprev : Linkable prev) : HeaderAt (sCreateNewBlock mem addr next prev) addr false next prev := by
  have hshift : ∀ target, target >>> dynSizeMultShift = target / 8 :=
    fun target ↦ Nat.shiftRight_eq_div_pow target 3
  obtain ⟨hnextMod, hnextLt⟩ := hnext
  obtain ⟨hprevMod, hprevLt⟩ := hprev
  have hfirst : load32 (sCreateNewBlock mem addr next prev) addr = next / 8 := by
    rw [sCreateNewBlock, load32_store32_of_apart (.inl (Nat.le_refl _)), hshift,
      load32_store32 (by omega)]
  have hsecond : load32 (sCreateNewBlock mem addr next prev) (addr + 4) = prev / 8 := by
    rw [sCreateNewBlock, hshift prev, load32_store32 (by omega)]
  refine ⟨?_, ?_, ?_⟩
  · rw [sGetNextBlock, hfirst, link_eq]
    omega
  · rw [sGetPrevBlock, hsecond, link_eq]
    omega
  · rw [sIsBlockFree, hfirst, Salloc.free_eq, testBit_of_lt (by omega)]

end Headers

/-! ### What writes to a header leave alone -/

/-- The memory changes in the headers at some addresses only. -/
def ChangesOnly (changed : List ℕ) (mem other : Memory) : Prop :=
  ∀ addr, (∀ header ∈ changed, addr < header ∨ header + 8 ≤ addr) → other addr = mem addr

section Frames

variable {mem other last : Memory} {changed more : List ℕ} {addr : ℕ}

theorem ChangesOnly.refl (changed : List ℕ) (mem : Memory) : ChangesOnly changed mem mem :=
  fun _ _ ↦ rfl

theorem ChangesOnly.mono (hchanges : ChangesOnly changed mem other)
    (hsubset : ∀ header ∈ changed, header ∈ more) : ChangesOnly more mem other :=
  fun addr houtside ↦ hchanges addr fun header hheader ↦ houtside header (hsubset header hheader)

theorem ChangesOnly.trans (hfirst : ChangesOnly changed mem other)
    (hsecond : ChangesOnly changed other last) : ChangesOnly changed mem last :=
  fun addr houtside ↦ (hsecond addr houtside).trans (hfirst addr houtside)

/-- The memories agree in an interval that none of the headers meets. -/
theorem ChangesOnly.agreeOn (hchanges : ChangesOnly changed mem other) {start finish : ℕ}
    (houtside : ∀ header ∈ changed, finish ≤ header ∨ header + 8 ≤ start) :
    AgreeOn mem other start finish :=
  fun addr hstart hfinish ↦ hchanges addr fun header hheader ↦ by
    have hheader := houtside header hheader
    omega

/-- The memories agree in an interval that the one header does not meet. -/
theorem ChangesOnly.agreeOn_one (hchanges : ChangesOnly [addr] mem other) {start finish : ℕ}
    (houtside : finish ≤ addr ∨ addr + 8 ≤ start) : AgreeOn mem other start finish :=
  hchanges.agreeOn (List.forall_mem_singleton.mpr houtside)

theorem changesOnly_store32 {header value : ℕ} (hinside : header ≤ addr ∧ addr + 4 ≤ header + 8) :
    ChangesOnly [header] mem (store32 mem addr value) :=
  fun other houtside ↦ store32_of_outside (by
    have hheader := houtside header (List.mem_singleton.mpr rfl)
    omega)

theorem changesOnly_setNext (mem : Memory) (addr target : ℕ) :
    ChangesOnly [addr] mem (sSetNextBlock mem addr target) :=
  changesOnly_store32 (by omega)

theorem changesOnly_setPrev (mem : Memory) (addr target : ℕ) :
    ChangesOnly [addr] mem (sSetPrevBlock mem addr target) :=
  changesOnly_store32 (by omega)

theorem changesOnly_markTaken (mem : Memory) (addr : ℕ) :
    ChangesOnly [addr] mem (sMarkBlockTaken mem addr) :=
  changesOnly_store32 (by omega)

theorem changesOnly_markFree (mem : Memory) (addr : ℕ) :
    ChangesOnly [addr] mem (sMarkBlockFree mem addr) :=
  changesOnly_store32 (by omega)

theorem changesOnly_createNewBlock (mem : Memory) (addr next prev : ℕ) :
    ChangesOnly [addr] mem (sCreateNewBlock mem addr next prev) :=
  (changesOnly_store32 (by omega)).trans (changesOnly_store32 (by omega))

end Frames

/-! ### Sizes -/

/-- Rounding up to a multiple of eight, where nothing wraps. -/
theorem sActSize_eq {size : ℕ} (hsize : size + 8 ≤ 2 ^ 32) : sActSize size = (size + 7) / 8 * 8 := by
  have hmask : size &&& (dynSizeMult - 1) = size % 8 := Nat.and_two_pow_sub_one_eq_mod size 3
  have hshift : size >>> dynSizeMultShift = size / 8 := Nat.shiftRight_eq_div_pow size 3
  have hback : (size / 8 + 1) <<< dynSizeMultShift = (size / 8 + 1) * 8 :=
    Nat.shiftLeft_eq (size / 8 + 1) 3
  rw [sActSize, hmask, hshift, hback]
  split_ifs <;> omega

/-- The size of a block is the distance to the next. -/
theorem HeaderAt.blockSize {mem : Memory} {addr size prev : ℕ} {taken : Bool} (hsize : 0 < size)
    (hheader : HeaderAt mem addr taken (addr + size) prev) : sGetBlockSize mem addr = size := by
  rw [sGetBlockSize, hheader.next_eq, sub32_eq (Nat.le_add_right ..), Nat.add_sub_cancel_left]
  exact if_pos (by omega)

end Elua.Salloc
