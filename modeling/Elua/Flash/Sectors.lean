import Elua.Foundation.Blocks
import Elua.Foundation.Word32

/-!
# Sectors of the internal flash

The sectors of the internal flash have one size, or their sizes stand in a table.
`flashh_find_sector` finds the sector of an address, and the sectors behind the one that holds the
last byte of the program are free.

`flashhFindSector_spec` says that the sector which is found is the block of the address, and where
it ends; `firstFreeBlock_spec` says where the free sectors begin. -/

set_option autoImplicit false
set_option relaxedAutoImplicit false

namespace Elua.Flash

open Foundation

/-! ### The code -/

/-- The sectors: all of `INTERNAL_FLASH_SECTOR_SIZE`, or as in `INTERNAL_FLASH_SECTOR_ARRAY`. -/
inductive SectorLayout
  | uniform (size count : ℕ)
  | table (sizes : List ℕ)

/-- The sizes of the sectors. -/
def SectorLayout.sizes : SectorLayout → List ℕ
  | .uniform size count => List.replicate count size
  | .table sizes => sizes

/-- The internal flash: `INTERNAL_FLASH_START_ADDRESS`, the sectors, and `flash_used_size`, which
the linker sets to the size of the program image. -/
structure InternalFlash where
  startAddress : ℕ
  layout : SectorLayout
  flashUsedSize : ℕ

/-- A sector, with its first and its last address. -/
structure SectorBounds where
  sectId : ℕ
  pstart : ℕ
  pend : ℕ
  deriving DecidableEq

/-- The loop that adds up the sizes of a table: `total` and `i` at its end. -/
def addSectors (address : ℕ) : (sizes : List ℕ) → (total i : ℕ) → ℕ × ℕ
  | [], total, i => (total, i)
  | size :: sizes, total, i =>
    if total ≤ address then addSectors address sizes (add32 total size) (i + 1) else (total, i)

/-- `flashh_find_sector`. -/
def flashhFindSector (flash : InternalFlash) (address : ℕ) : SectorBounds :=
  let address := sub32 address flash.startAddress
  match flash.layout with
  | .uniform size _ =>
    let sectId := address / size
    ⟨sectId, (sectId * size + flash.startAddress) % 2 ^ 32,
      sub32 (((sectId + 1) * size + flash.startAddress) % 2 ^ 32) 1⟩
  | .table sizes =>
    let (total, i) := addSectors address sizes 0 0
    ⟨i - 1, add32 (sub32 total (sizes.getD (i - 1) 0)) flash.startAddress,
      sub32 (add32 total flash.startAddress) 1⟩

/-- `platform_flash_get_sector_of_address`. -/
def platformFlashGetSectorOfAddress (flash : InternalFlash) (addr : ℕ) : ℕ :=
  (flashhFindSector flash addr).sectId

/-- `platform_flash_get_first_free_block_address`: the address, and the sector that it leaves in
`*psect`. -/
def platformFlashGetFirstFreeBlockAddress (flash : InternalFlash) : ℕ × ℕ :=
  let found := flashhFindSector flash (sub32 (add32 flash.flashUsedSize flash.startAddress) 1)
  (add32 found.pend 1, add32 found.sectId 1)

/-! ### What the functions find -/

/-- The sizes of the sectors. -/
def InternalFlash.sizes (flash : InternalFlash) : List ℕ := flash.layout.sizes

/-- The flash lies in the address space, and holds a program. -/
structure InternalFlash.Fits (flash : InternalFlash) : Prop where
  size_pos : ∀ size ∈ flash.sizes, 0 < size
  sum_lt : flash.sizes.sum < 2 ^ 32
  end_le : flash.startAddress + flash.sizes.sum ≤ 2 ^ 32
  used_pos : 0 < flash.flashUsedSize
  used_le : flash.flashUsedSize ≤ flash.sizes.sum

section Spec

variable {flash : InternalFlash} {offset : ℕ}

theorem addSectors_of_lt {address total : ℕ} (sizes : List ℕ) (i : ℕ) (hlt : address < total) :
    addSectors address sizes total i = (total, i) := by
  cases sizes with
  | nil => rfl
  | cons size sizes => exact if_neg hlt.not_ge

/-- The loop ends behind the sector of the address. -/
theorem addSectors_spec {sizes : List ℕ} {total : ℕ} (i : ℕ) (hoffset : offset < sizes.sum)
    (hbound : total + sizes.sum < 2 ^ 32) :
    ∃ block, InBlock sizes offset block ∧ addSectors (total + offset) sizes total i =
      (total + blockStart sizes (block + 1), i + (block + 1)) := by
  induction sizes generalizing offset total i with
  | nil => exact absurd hoffset (Nat.not_lt_zero offset)
  | cons size sizes ih =>
    rw [List.sum_cons] at hoffset hbound
    rw [addSectors, if_pos (Nat.le_add_right total offset), add32_eq (by omega)]
    by_cases hhere : offset < size
    · refine ⟨0, inBlock_head hhere, ?_⟩
      rw [addSectors_of_lt sizes (i + 1) (Nat.add_lt_add_left hhere total), blockStart_cons_succ,
        blockStart_zero]
      rfl
    · obtain ⟨rest, rfl⟩ := Nat.exists_eq_add_of_le (not_lt.mp hhere)
      obtain ⟨block, hblock, hloop⟩ := @ih rest (total + size) (i + 1) (by omega) (by omega)
      refine ⟨block + 1, hblock.cons size, ?_⟩
      rw [← Nat.add_assoc, hloop, blockStart_cons_succ, Nat.add_assoc, Nat.add_right_comm i 1]
      rfl

/-- The address in front of one that is a word or the end of the address space. -/
theorem sub32_one_add_one {finish : ℕ} (hpos : 0 < finish) (hle : finish ≤ 2 ^ 32) :
    sub32 (finish % 2 ^ 32) 1 + 1 = finish := by
  unfold sub32
  split_ifs <;> omega

/-- The sector that is found holds the address, and has the bounds of its block. -/
theorem flashhFindSector_spec (hfits : flash.Fits) (hoffset : offset < flash.sizes.sum) :
    ∃ sect, InBlock flash.sizes offset sect ∧
      flashhFindSector flash (flash.startAddress + offset) =
        ⟨sect, flash.startAddress + blockStart flash.sizes sect,
          flash.startAddress + blockStart flash.sizes (sect + 1) - 1⟩ := by
  have hend := hfits.end_le
  have haddress : sub32 (flash.startAddress + offset) flash.startAddress = offset := by
    rw [sub32_eq (Nat.le_add_right ..), Nat.add_sub_cancel_left]
  have hlast : ∀ sect, InBlock flash.sizes offset sect →
      sub32 ((flash.startAddress + blockStart flash.sizes (sect + 1)) % 2 ^ 32) 1 =
        flash.startAddress + blockStart flash.sizes (sect + 1) - 1 := by
    intro sect hsect
    have hlt := hsect.lt_start_succ
    have hle := blockStart_le_sum flash.sizes (sect + 1)
    have hword := @sub32_one_add_one (flash.startAddress + blockStart flash.sizes (sect + 1))
      (by omega) (by omega)
    omega
  unfold flashhFindSector
  rw [haddress]
  cases hlayout : flash.layout with
  | uniform size count =>
    have hsizes : flash.sizes = List.replicate count size := by
      unfold InternalFlash.sizes
      rw [hlayout]
      rfl
    rw [hsizes] at hlast hoffset hend ⊢
    rw [List.sum_replicate, Nat.nsmul_eq_mul] at hoffset hend
    have hblock := inBlock_replicate hoffset
    have hstart := hblock.start_le
    have hcount : offset / size + 1 ≤ count := by
      have hlt := hblock.block_lt
      rwa [List.length_replicate] at hlt
    have hnext : (offset / size + 1) * size + flash.startAddress =
        flash.startAddress + blockStart (List.replicate count size) (offset / size + 1) := by
      rw [blockStart_replicate size hcount, Nat.add_comm]
    refine ⟨offset / size, hblock, ?_⟩
    dsimp only
    rw [hnext, hlast _ hblock, ← blockStart_replicate size (Nat.le_of_succ_le hcount),
      Nat.add_comm _ flash.startAddress, Nat.mod_eq_of_lt (by omega)]
  | table sizes =>
    have hsizes : flash.sizes = sizes := by
      unfold InternalFlash.sizes
      rw [hlayout]
      rfl
    have hsum := hfits.sum_lt
    rw [hsizes] at hlast hoffset hsum hend ⊢
    obtain ⟨block, hblock, hloop⟩ := @addSectors_spec offset sizes 0 0 hoffset (by omega)
    rw [Nat.zero_add, Nat.zero_add, Nat.zero_add] at hloop
    have hstart := hblock.start_le
    have hnext := blockStart_succ sizes block
    refine ⟨block, hblock, ?_⟩
    dsimp only
    rw [hloop]
    dsimp only
    rw [Nat.add_sub_cancel, sub32_eq (by omega), hnext, Nat.add_sub_cancel, ← hnext,
      add32_eq (by omega), add32, Nat.add_comm _ flash.startAddress,
      Nat.add_comm _ flash.startAddress, hlast _ hblock]

/-- The free sectors begin behind the one with the last byte of the program. -/
theorem firstFreeBlock_spec (hfits : flash.Fits) :
    ∃ sect, InBlock flash.sizes (flash.flashUsedSize - 1) sect ∧
      platformFlashGetFirstFreeBlockAddress flash =
        ((flash.startAddress + blockStart flash.sizes (sect + 1)) % 2 ^ 32, sect + 1) := by
  have hend := hfits.end_le
  have hpos := hfits.used_pos
  have hused := hfits.used_le
  have hword := @sub32_one_add_one (flash.flashUsedSize + flash.startAddress) (by omega) (by omega)
  have haddress : sub32 (add32 flash.flashUsedSize flash.startAddress) 1 =
      flash.startAddress + (flash.flashUsedSize - 1) := by
    unfold add32
    omega
  obtain ⟨sect, hsect, hfound⟩ :=
    @flashhFindSector_spec flash (flash.flashUsedSize - 1) hfits (by omega)
  refine ⟨sect, hsect, ?_⟩
  unfold platformFlashGetFirstFreeBlockAddress
  rw [haddress, hfound]
  dsimp only
  have hlt := hsect.lt_start_succ
  have hlength := List.length_le_sum_of_one_le flash.sizes hfits.size_pos
  have hsectLt := hsect.block_lt
  have hsum := hfits.sum_lt
  have hnext : add32 sect 1 = sect + 1 := add32_eq (by omega)
  rw [hnext, add32, Nat.sub_add_cancel (by omega)]

end Spec

end Elua.Flash
