import Elua.Salloc.ArenaBlocks

/-!
# Allocating, shrinking and setting up an arena

What the functions that search an arena for a block, shrink a block and set an arena up do to the
blocks of the arena.
-/

set_option autoImplicit false
set_option relaxedAutoImplicit false

namespace Elua.Salloc

open Foundation

/-! ### Blocks of a request -/

/-- A taken block that was given out for a request. -/
def requested (size request : ℕ) (hmod : size % 8 = 0) (hle : request + 8 ≤ size) : Block :=
  ⟨size, some request, hmod, by omega, fun other hother ↦ by
    obtain rfl := Option.some.inj hother
    exact hle⟩

/-- The size of a block for a request. -/
theorem blockSize_eq {size : ℕ} (hsize : size + 16 ≤ 2 ^ 32) :
    sActSize (add32 size dynHeaderSize) = (size + 15) / 8 * 8 := by
  rw [dynHeaderSize, add32_eq (by omega), sActSize_eq (by omega)]

theorem size_le_span {blocks : List Block} {block : Block} (hblock : block ∈ blocks) :
    block.size ≤ span blocks := by
  obtain ⟨before, after, rfl⟩ := List.append_of_mem hblock
  rw [span_append, span_cons]
  omega

section Steps

variable {mem : Memory} {arena : Arena} {before after old : List Block} {block : Block}

/-- The header of a block that is taken apart from its arena. -/
theorem ArenaHolds.header (hholds : ArenaHolds mem arena (before ++ block :: after)) :
    ∃ prev, HeaderAt mem (arena.start + 8 + span before) block.taken
      (arena.start + 8 + span before + block.size) prev := by
  have hchain : Chain mem 0 arena.start ((guard :: before) ++ block :: after) := hholds.chain
  have hheader := (chain_cons.mp (chain_append.mp hchain).2).1
  rw [span_guard] at hheader
  exact ⟨_, hheader⟩

/-- The end of a block lies inside the arena. -/
theorem ArenaHolds.block_bound (hholds : ArenaHolds mem arena (before ++ block :: after)) :
    arena.start + 8 + span before + block.size + 8 ≤ arena.finish := by
  have htiles := hholds.tiles
  rw [span_append, span_cons] at htiles
  omega

/-- A block that is given out, of which what is too large is split off. -/
theorem ArenaHolds.exists_split_step {marked : Memory} {requestedBlock : Block} {request need : ℕ}
    (hmarked : ArenaHolds marked arena (before ++ requestedBlock :: after))
    (htaken : requestedBlock.taken = true) (hsize : requestedBlock.size = block.size)
    (hchanges : ChangesOnly [arena.start + 8 + span before] mem marked)
    (hneedMod : need % 8 = 0) (hneed : request + 8 ≤ need) (hsplit : need + 16 ≤ block.size) :
    ∃ fuel other new,
      sSplitBlock fuel marked (arena.start + 8 + span before) need = some other ∧
        ArenaStep arena mem other (before ++ block :: after) new (arena.start + 8 + span before)
          (if block.taken then some block else none) (some (requested need request hneedMod hneed)) := by
  obtain ⟨fuel, other, rest, hresult, hholds, hsplitChanges, hrest⟩ :=
    @ArenaHolds.exists_split _ _ _ _ _ hmarked htaken (requested need request hneedMod hneed) rfl
      (hsize ▸ hsplit)
  have hheaders : headers arena.start (guard :: (before ++ requestedBlock :: after)) =
      headers arena.start (guard :: (before ++ block :: after)) :=
    @headers_replace arena.start (guard :: before) after block requestedBlock hsize
  have hmem : arena.start + 8 + span before ∈
      headers arena.start (guard :: (before ++ block :: after)) :=
    span_guard arena before ▸ split_mem_headers arena.start (guard :: before) (block :: after)
  refine ⟨fuel, other, _, hresult, hholds, ?_, _, _, takenTiles_split _ before after block, ?_⟩
  · rw [hheaders] at hsplitChanges
    exact (hchanges.mono (List.forall_mem_singleton.mpr (List.mem_append_left _ hmem))).trans
      hsplitChanges
  · rw [takenTiles_split, hrest, hsize]
    rfl

/-- A block that is given out as a whole. -/
theorem ArenaHolds.whole_step {marked : Memory} {requestedBlock : Block}
    (hmarked : ArenaHolds marked arena (before ++ requestedBlock :: after))
    (htaken : requestedBlock.taken = true) (hsize : requestedBlock.size = block.size)
    (hchanges : ChangesOnly [arena.start + 8 + span before] mem marked) :
    ArenaStep arena mem marked (before ++ block :: after) (before ++ requestedBlock :: after)
      (arena.start + 8 + span before) (if block.taken then some block else none)
        (some requestedBlock) := by
  have hmem : arena.start + 8 + span before ∈
      headers arena.start (guard :: (before ++ block :: after)) :=
    span_guard arena before ▸ split_mem_headers arena.start (guard :: before) (block :: after)
  refine ⟨hmarked, hchanges.mono (List.forall_mem_singleton.mpr (List.mem_append_left _ hmem)), _, _,
    takenTiles_split _ before after block, ?_⟩
  rw [takenTiles_split, htaken, hsize]
  rfl

/-- The search in an arena: either no free block is large enough, or one is given out. -/
theorem ArenaHolds.exists_sGetFreeBlock (hholds : ArenaHolds mem arena old) {size : ℕ}
    (hpos : 0 < size) (hlt : size + 16 ≤ 2 ^ 32) :
    (∃ fuel, sGetFreeBlock fuel mem size arena.start = some (0, mem) ∧
        ∀ block ∈ old, block.taken = false → block.size < size + 8) ∨
      ∃ fuel addr other new block,
        sGetFreeBlock fuel mem size arena.start = some (addr + 8, other) ∧
          ArenaStep arena mem other old new addr none (some block) ∧ block.owner = some size := by
  have hfinish := arena.finish_lt
  have hneed := @blockSize_eq size (by omega)
  obtain ⟨hguard, hblocks⟩ := chain_cons.mp hholds.chain
  have hnext : sGetNextBlock mem arena.start = arena.start + 8 := hguard.next_eq
  obtain ⟨fuel, found, hloop, hcases, -, hmin⟩ :=
    @exists_runLoop_bestFit mem arena.start (arena.start + 8) ((size + 15) / 8 * 8) old
      ⟨0, 0xFFFFFFFF⟩ hblocks (by omega)
  obtain rfl | ⟨before, block, after, rfl, hfree, hfits, rfl⟩ := hcases
  · refine .inl ⟨fuel, ?_, fun block hblock hfree ↦ ?_⟩
    · rw [sGetFreeBlock, if_neg (by omega)]
      simp only [hneed, hnext, hloop, Option.bind_some, if_true]
    · by_contra hlarge
      have hmod := block.size_mod
      have hle := hmin block hblock hfree (by omega)
      have hspan := size_le_span hblock
      have htiles := hholds.tiles
      simp only at hle
      omega
  · have hbound := hholds.block_bound
    have hblockMod := block.size_mod
    have hmarked := hholds.replace
      (rfl : (requested block.size size block.size_mod (by omega)).size = block.size) rfl
      (fun _ _ hheader ↦ hheader.markTaken) (changesOnly_markTaken mem _)
    have hreturn : add32 (arena.start + 8 + span before) dynHeaderSize =
        arena.start + 8 + span before + 8 := add32_eq (by rw [dynHeaderSize]; omega)
    have hsub : sub32 block.size ((size + 15) / 8 * 8) = block.size - (size + 15) / 8 * 8 :=
      sub32_eq hfits
    have hpblock : arena.start + 8 + span before ≠ 0 := by omega
    have hsearch : ∀ more, fuel ≤ more → sGetFreeBlock more mem size arena.start =
        if (size + 15) / 8 * 8 < block.size ∧ 16 ≤ block.size - (size + 15) / 8 * 8 then
          (sSplitBlock more (sMarkBlockTaken mem (arena.start + 8 + span before))
            (arena.start + 8 + span before) ((size + 15) / 8 * 8)).map fun mem ↦
              (arena.start + 8 + span before + 8, mem)
        else some (arena.start + 8 + span before + 8,
          sMarkBlockTaken mem (arena.start + 8 + span before)) := by
      intro more hmore
      rw [sGetFreeBlock, if_neg (by omega)]
      simp only [hneed, hnext, runLoop_mono hmore hloop, Option.bind_some, hpblock, if_false,
        hreturn, hsub, dynMinSplitSize]
    refine .inr ?_
    by_cases hsplit : (size + 15) / 8 * 8 < block.size ∧ 16 ≤ block.size - (size + 15) / 8 * 8
    · obtain ⟨more, other, new, hresult, hstep⟩ :=
        @ArenaHolds.exists_split_step mem _ _ _ block _ _ size ((size + 15) / 8 * 8) hmarked rfl rfl
          (changesOnly_markTaken mem _) (by omega) (by omega) (by omega)
      have hmore := fuelMono_sSplitBlock _ _ _ (Nat.le_max_right fuel more) hresult
      simp only at hmore
      rw [hfree] at hstep
      refine ⟨max fuel more, _, other, new, _, ?_, hstep, rfl⟩
      rw [hsearch _ (Nat.le_max_left _ _), if_pos hsplit, hmore]
      rfl
    · have hstep := @ArenaHolds.whole_step mem _ _ _ block _ _ hmarked rfl rfl
        (changesOnly_markTaken mem _)
      rw [hfree] at hstep
      refine ⟨fuel, _, _, _, _, ?_, hstep, rfl⟩
      rw [hsearch _ (Nat.le_refl _), if_neg hsplit]

/-! ### Blocks of the caller -/

/-- The header of a block is found from its payload. -/
theorem sub32_payload (addr : ℕ) : sub32 (addr + 8) dynHeaderSize = addr := by
  rw [dynHeaderSize, sub32_eq (Nat.le_add_left ..), Nat.add_sub_cancel]

/-- What a header says about the size of the block. -/
theorem ArenaHolds.blockSize (hholds : ArenaHolds mem arena (before ++ block :: after)) :
    sGetBlockSize mem (arena.start + 8 + span before) = block.size := by
  obtain ⟨_, hheader⟩ := hholds.header
  exact hheader.blockSize (by have := block.header_le; omega)

/-- The payload of a block is the block without its header. -/
theorem ArenaHolds.actualBlockSize (hholds : ArenaHolds mem arena (before ++ block :: after)) :
    sGetActualBlockSize mem (arena.start + 8 + span before + 8) = block.size - 8 := by
  rw [sGetActualBlockSize, sub32_payload, hholds.blockSize]
  exact sub32_eq block.header_le

/-- A taken block gets a new request that fits into it; the memory stays as it is. -/
theorem ArenaHolds.retag_step (hholds : ArenaHolds mem arena (before ++ block :: after))
    (htaken : block.taken = true) {size : ℕ} (hsize : size + 8 ≤ block.size) :
    ArenaStep arena mem mem (before ++ block :: after)
      (before ++ requested block.size size block.size_mod hsize :: after)
      (arena.start + 8 + span before) (some block)
      (some (requested block.size size block.size_mod hsize)) := by
  have hmarked := hholds.replace
    (rfl : (requested block.size size block.size_mod hsize).size = block.size) rfl
    (fun _ _ hheader ↦ htaken ▸ hheader) (.refl _ _)
  have hstep := @ArenaHolds.whole_step mem _ _ _ block _ _ hmarked rfl rfl (.refl _ _)
  rwa [htaken] at hstep

/-- Shrinking a taken block to a size that fits into it. -/
theorem ArenaHolds.exists_sShrinkBlock (hholds : ArenaHolds mem arena (before ++ block :: after))
    (htaken : block.taken = true) {size : ℕ} (hsize : size + 8 ≤ block.size) :
    ∃ fuel other new kept,
      sShrinkBlock fuel mem (arena.start + 8 + span before + 8) size = some other ∧
        ArenaStep arena mem other (before ++ block :: after) new (arena.start + 8 + span before)
          (some block) (some kept) ∧ kept.owner = some size ∧ kept.size ≤ block.size := by
  have hfinish := arena.finish_lt
  have hbound := hholds.block_bound
  have hmod := block.size_mod
  have hkept := hholds.retag_step htaken hsize
  have hshrink : ∀ fuel, sShrinkBlock fuel mem (arena.start + 8 + span before + 8) size =
      if block.size ≤ (size + 15) / 8 * 8 ∨ sub32 block.size ((size + 15) / 8 * 8) < 16 then some mem
      else sSplitBlock fuel mem (arena.start + 8 + span before) ((size + 15) / 8 * 8) := by
    intro fuel
    rw [sShrinkBlock]
    simp only [sub32_payload, hholds.blockSize, blockSize_eq (show size + 16 ≤ 2 ^ 32 by omega),
      dynMinSplitSize]
  by_cases hkeep : block.size ≤ (size + 15) / 8 * 8 ∨ sub32 block.size ((size + 15) / 8 * 8) < 16
  · exact ⟨0, _, _, _, (hshrink 0).trans (if_pos hkeep), hkept, rfl, Nat.le_refl _⟩
  · obtain ⟨hlarge, hrest⟩ := not_or.mp hkeep
    rw [sub32_eq (by omega)] at hrest
    obtain ⟨fuel, other, new, hresult, hstep⟩ :=
      @ArenaHolds.exists_split_step mem _ _ _ block _ _ size ((size + 15) / 8 * 8) hkept.holds rfl rfl
        (.refl _ _) (by omega) (by omega) (by omega)
    rw [htaken] at hstep
    refine ⟨fuel, other, new, _, (hshrink fuel).trans ((if_neg hkeep).trans hresult), hstep, rfl, ?_⟩
    change (size + 15) / 8 * 8 ≤ block.size
    omega

end Steps

/-! ### Setting up -/

/-- Between the guards of an arena is a multiple of eight bytes. -/
theorem Arena.between_mod (arena : Arena) : (arena.finish - arena.start - 16) % 8 = 0 := by
  have hstart := arena.start_mod
  have hfinish := arena.finish_mod
  omega

/-- A larger arena has room for a header between the guards. -/
theorem Arena.header_le (arena : Arena) (hroom : arena.start + 24 ≤ arena.finish) :
    8 ≤ arena.finish - arena.start - 16 := by
  omega

/-- The block that a new arena consists of. -/
def wholeBlock (arena : Arena) (hroom : arena.start + 24 ≤ arena.finish) : Block where
  size := arena.finish - arena.start - 16
  owner := none
  size_mod := arena.between_mod
  header_le := arena.header_le hroom
  owner_le := nofun

/-- The functions that set an arena up write three headers. -/
theorem initArena_eq (mem : Memory) (arena : Arena) :
    initArena mem arena =
      sMarkBlockFree (sMarkBlockTaken (sMarkBlockTaken
        (sCreateNewBlock (sCreateNewBlock (sCreateNewBlock mem arena.start (arena.start + 8) 0)
          (arena.start + 8) (arena.finish - 8) arena.start) (arena.finish - 8) 0 (arena.start + 8))
        arena.start) (arena.finish - 8)) (arena.start + 8) := by
  have hroom := arena.room
  have hfinish := arena.finish_lt
  have hmemspace : sub32 arena.finish arena.start = arena.finish - arena.start := sub32_eq (by omega)
  have hcrt : add32 arena.start 8 = arena.start + 8 := add32_eq (by omega)
  have hend : add32 arena.start (arena.finish - arena.start) = arena.finish := by
    rw [add32_eq (by omega), Nat.add_sub_cancel' (by omega)]
  have hguard : sub32 arena.finish 8 = arena.finish - 8 := sub32_eq (by omega)
  simp only [initArena, dynSizeMult, hmemspace, hcrt, hend, hguard]

theorem changesOnly_initArena (mem : Memory) (arena : Arena) :
    ChangesOnly [arena.start, arena.start + 8, arena.finish - 8] mem (initArena mem arena) := by
  rw [initArena_eq]
  refine .trans ?_ ((changesOnly_markFree _ _).mono (by simp))
  refine .trans ?_ ((changesOnly_markTaken _ _).mono (by simp))
  refine .trans ?_ ((changesOnly_markTaken _ _).mono (by simp))
  refine .trans ?_ ((changesOnly_createNewBlock _ _ _ _).mono (by simp))
  exact ((changesOnly_createNewBlock _ _ _ _).mono (by simp)).trans
    ((changesOnly_createNewBlock _ _ _ _).mono (by simp))

/-- A new arena is one free block between the guards. -/
theorem arenaHolds_initArena (mem : Memory) (arena : Arena)
    (hroom : arena.start + 24 ≤ arena.finish) :
    ArenaHolds (initArena mem arena) arena [wholeBlock arena hroom] := by
  have hstart := arena.start_mod
  have hfinishMod := arena.finish_mod
  have hfinish := arena.finish_lt
  have hzero : Linkable 0 := ⟨rfl, by decide⟩
  have hfirstLink : Linkable arena.start := ⟨hstart, by omega⟩
  have hblockLink : Linkable (arena.start + 8) := ⟨by omega, by omega⟩
  have hlastLink : Linkable (arena.finish - 8) := ⟨by omega, by omega⟩
  rw [initArena_eq]
  have hfirst := headerAt_createNewBlock mem arena.start hblockLink hzero
  generalize sCreateNewBlock mem arena.start (arena.start + 8) 0 = mem₁ at *
  have hblock := headerAt_createNewBlock mem₁ (arena.start + 8) hlastLink hfirstLink
  have hfirst := hfirst.congr ((changesOnly_createNewBlock mem₁ (arena.start + 8) (arena.finish - 8)
    arena.start).agreeOn_one (.inl (by omega)))
  generalize sCreateNewBlock mem₁ (arena.start + 8) (arena.finish - 8) arena.start = mem₂ at *
  have hlast := headerAt_createNewBlock mem₂ (arena.finish - 8) hzero hblockLink
  have hcreated := changesOnly_createNewBlock mem₂ (arena.finish - 8) 0 (arena.start + 8)
  have hfirst := (hfirst.congr (hcreated.agreeOn_one (.inl (by omega)))).markTaken
  have hblock := hblock.congr (hcreated.agreeOn_one (.inl (by omega)))
  generalize sCreateNewBlock mem₂ (arena.finish - 8) 0 (arena.start + 8) = mem₃ at *
  have hmarked := changesOnly_markTaken mem₃ arena.start
  have hblock := hblock.congr (hmarked.agreeOn_one (.inr (by omega)))
  have hlast := (hlast.congr (hmarked.agreeOn_one (.inr (by omega)))).markTaken
  generalize sMarkBlockTaken mem₃ arena.start = mem₄ at *
  have hmarked := changesOnly_markTaken mem₄ (arena.finish - 8)
  have hfirst := hfirst.congr (hmarked.agreeOn_one (.inl (by omega)))
  have hblock := (hblock.congr (hmarked.agreeOn_one (.inl (by omega)))).markFree
  generalize sMarkBlockTaken mem₄ (arena.finish - 8) = mem₅ at *
  have hfreed := changesOnly_markFree mem₅ (arena.start + 8)
  have hfirst := hfirst.congr (hfreed.agreeOn_one (.inl (by omega)))
  have hlast := hlast.congr (hfreed.agreeOn_one (.inr (by omega)))
  have hend : arena.start + 8 + (wholeBlock arena hroom).size = arena.finish - 8 := by
    change arena.start + 8 + (arena.finish - arena.start - 16) = _
    omega
  refine ⟨chain_cons.mpr ⟨hfirst, chain_cons.mpr ⟨?_, trivial, ?_⟩⟩, ?_, List.isChain_singleton _⟩
  · exact hend ▸ hblock
  · change HeaderAt _ (arena.start + 8 + (wholeBlock arena hroom).size + 0) true 0 _
    rw [Nat.add_zero, hend]
    exact hlast
  · rw [span_cons, ← Nat.add_assoc, hend]
    change arena.finish - 8 + 0 + 8 = _
    omega

end Elua.Salloc
