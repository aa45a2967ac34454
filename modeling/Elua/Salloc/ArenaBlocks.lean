import Elua.Salloc.Compaction
import Mathlib.Data.List.Chain

/-!
# Arenas

`ArenaHolds mem arena blocks` says that an arena is tiled by a list of blocks between its two
guards, and that no two free blocks are neighbours. The operations on an arena free a block, take
one, or shrink one; `ArenaStep` says what each does: the arena holds a list of blocks again, in
which the taken blocks are the same but for one, and nothing changed but headers. -/

set_option autoImplicit false
set_option relaxedAutoImplicit false

namespace Elua.Salloc

open Foundation

/-! ### What an arena holds -/

/-- Two neighbours that are not both free. -/
def NotBothFree (first second : Block) : Prop := first.taken = true ∨ second.taken = true

/-- The arena is tiled by the blocks between its guards. -/
structure ArenaHolds (mem : Memory) (arena : Arena) (blocks : List Block) : Prop where
  chain : Chain mem 0 arena.start (guard :: blocks)
  tiles : arena.start + 8 + span blocks + 8 = arena.finish
  apart : blocks.IsChain NotBothFree

/-- The taken blocks of a list with their addresses. -/
def takenTiles (addr : ℕ) (blocks : List Block) : List (ℕ × Block) :=
  (placed Block.size addr blocks).filter (·.2.taken)

theorem takenTiles_append (addr : ℕ) (firsts seconds : List Block) :
    takenTiles addr (firsts ++ seconds) =
      takenTiles addr firsts ++ takenTiles (addr + span firsts) seconds := by
  rw [takenTiles, placed_append, List.filter_append]
  rfl

theorem takenTiles_cons_taken {block : Block} (htaken : block.taken = true) (addr : ℕ)
    (blocks : List Block) :
    takenTiles addr (block :: blocks) = (addr, block) :: takenTiles (addr + block.size) blocks :=
  List.filter_cons_of_pos htaken

theorem takenTiles_cons_free {block : Block} (hfree : block.taken = false) (addr : ℕ)
    (blocks : List Block) :
    takenTiles addr (block :: blocks) = takenTiles (addr + block.size) blocks :=
  List.filter_cons_of_neg (by simp [hfree])

theorem takenTiles_allFree {blocks : List Block} (hfree : AllFree blocks) (addr : ℕ) :
    takenTiles addr blocks = [] := by
  induction blocks generalizing addr with
  | nil => rfl
  | cons block blocks ih =>
    obtain ⟨hblock, hblocks⟩ := List.forall_mem_cons.mp hfree
    rw [takenTiles_cons_free hblock, ih hblocks]

theorem mem_takenTiles {addr : ℕ} {blocks : List Block} {tile : ℕ × Block} :
    tile ∈ takenTiles addr blocks ↔
      tile ∈ placed Block.size addr blocks ∧ tile.2.taken = true :=
  List.mem_filter

/-- What an operation on one block does to an arena: a taken block goes, or one comes, or both, at
one address. -/
structure ArenaStep (arena : Arena) (mem other : Memory) (old new : List Block) (addr : ℕ)
    (gone come : Option Block) : Prop where
  holds : ArenaHolds other arena new
  changes : ChangesOnly (headers arena.start (guard :: old) ++ headers arena.start (guard :: new))
    mem other
  taken : ∃ before after,
    takenTiles (arena.start + 8) old = before ++ (gone.toList.map (addr, ·) ++ after) ∧
      takenTiles (arena.start + 8) new = before ++ (come.toList.map (addr, ·) ++ after)

/-! ### Neighbours -/

section Neighbours

/-- A taken block keeps the free blocks on its sides apart. -/
theorem isChain_taken_between {before after : List Block} {block : Block}
    (hbefore : before.IsChain NotBothFree) (hafter : after.IsChain NotBothFree)
    (htaken : block.taken = true) : (before ++ block :: after).IsChain NotBothFree := by
  refine List.isChain_append.mpr ⟨hbefore, List.isChain_cons.mpr ⟨fun _ _ ↦ .inl htaken, hafter⟩, ?_⟩
  intro first _ second hsecond
  obtain rfl : block = second := by simpa using hsecond
  exact .inr htaken

/-- A block in front of a list that begins with a taken block. -/
theorem isChain_cons_of_headTaken {block : Block} {blocks : List Block}
    (hblocks : blocks.IsChain NotBothFree) (hhead : HeadTaken blocks) :
    (block :: blocks).IsChain NotBothFree :=
  List.isChain_cons.mpr ⟨fun other hother ↦ .inr (hhead other hother), hblocks⟩

/-- The free blocks at the end of what follows the guard, and the taken block in front of them. -/
theorem exists_front (before : List Block) : ∃ front lefts pre left, before = front ++ lefts ∧
    guard :: front = pre ++ [left] ∧ left.taken = true ∧ AllFree lefts := by
  induction before using List.reverseRecOn with
  | nil => exact ⟨[], [], [], guard, rfl, rfl, rfl, nofun⟩
  | append_singleton before block ih =>
    cases htaken : block.taken with
    | true =>
      exact ⟨before ++ [block], [], guard :: before, block, (List.append_nil _).symm, rfl, htaken,
        nofun⟩
    | false =>
      obtain ⟨front, lefts, pre, left, rfl, hsplit, hleft, hfree⟩ := ih
      exact ⟨front, lefts ++ [block], pre, left, List.append_assoc _ _ _, hsplit, hleft,
        List.forall_mem_append.mpr ⟨hfree, List.forall_mem_singleton.mpr htaken⟩⟩

/-- The free blocks at the start of a list. -/
theorem exists_back (after : List Block) :
    ∃ rights back, after = rights ++ back ∧ AllFree rights ∧ HeadTaken back := by
  induction after with
  | nil => exact ⟨[], [], rfl, nofun, nofun⟩
  | cons block after ih =>
    cases htaken : block.taken with
    | true =>
      refine ⟨[], block :: after, rfl, nofun, fun other hother ↦ ?_⟩
      obtain rfl : block = other := by simpa using hother
      exact htaken
    | false =>
      obtain ⟨rights, back, rfl, hfree, hback⟩ := ih
      exact ⟨block :: rights, back, rfl, List.forall_mem_cons.mpr ⟨htaken, hfree⟩, hback⟩

/-- Headers depend on the sizes of the blocks only. -/
theorem headers_replace {addr : ℕ} {before after : List Block} {block new : Block}
    (hsize : new.size = block.size) :
    headers addr (before ++ new :: after) = headers addr (before ++ block :: after) := by
  rw [headers_append, headers_append, headers_cons, headers_cons, hsize]

end Neighbours

/-! ### The guard -/

section Guard

variable {mem other : Memory} {arena : Arena} {before after : List Block} {block : Block}

theorem linkable_start (arena : Arena) : Linkable arena.start :=
  ⟨arena.start_mod, by have := arena.room; have := arena.finish_lt; omega⟩

/-- The chain of an arena ends below the end of the address space. -/
theorem ArenaHolds.bound (hholds : ArenaHolds mem arena before) :
    arena.start + span (guard :: before) < 2 ^ 32 := by
  have htiles := hholds.tiles
  have hfinish := arena.finish_lt
  rw [span_cons, show guard.size = 8 from rfl]
  omega

/-- The address of a block in the chain with the guard. -/
theorem span_guard (arena : Arena) (before : List Block) :
    arena.start + span (guard :: before) = arena.start + 8 + span before := by
  rw [span_cons, ← Nat.add_assoc]
  rfl

/-- A list of blocks keeps free blocks apart with the guard in front as without. -/
theorem isChain_guard_cons {blocks : List Block} (hblocks : blocks.IsChain NotBothFree) :
    (guard :: blocks).IsChain NotBothFree :=
  List.isChain_cons.mpr ⟨fun _ _ ↦ .inl rfl, hblocks⟩

end Guard

/-! ### Freeing a block -/

section Operations

variable {mem : Memory} {arena : Arena} {before after old : List Block} {block : Block}

/-- Freeing a taken block. -/
theorem ArenaHolds.exists_free (hholds : ArenaHolds mem arena (before ++ block :: after))
    (htaken : block.taken = true) :
    ∃ fuel other new,
      sFreeBlock fuel mem (arena.start + 8 + span before + 8) = some other ∧
        ArenaStep arena mem other (before ++ block :: after) new (arena.start + 8 + span before)
          (some block) none := by
  obtain ⟨front, lefts, pre, left, rfl, hfront, hleft, hlefts⟩ := exists_front before
  obtain ⟨rights, back, rfl, hrights, hback⟩ := exists_back after
  have hregroup : ∀ tail, guard :: (front ++ tail) = pre ++ left :: tail := fun tail ↦ by
    rw [← List.cons_append, hfront, List.append_assoc, List.singleton_append]
  have hold : guard :: ((front ++ lefts) ++ block :: (rights ++ back)) =
      pre ++ left :: (lefts ++ block :: (rights ++ back)) := by
    rw [List.append_assoc, hregroup]
  obtain ⟨fuel, other, hcompact, hchain, hchanges⟩ := exists_sCompactFree (hold ▸ hholds.chain)
    hleft hlefts hrights hback (linkable_start arena) (hold ▸ hholds.bound)
  have htarget : arena.start + span (pre ++ left :: lefts) =
      arena.start + 8 + span (front ++ lefts) := by
    rw [← hregroup, span_guard]
  have hjoined : (joined lefts block rights).size = span lefts + (block.size + span rights) := by
    change span _ = _
    rw [span_append, span_cons]
  refine ⟨fuel, other, front ++ joined lefts block rights :: back, ?_, ?_⟩
  · have hbound := hholds.bound
    rw [span_guard, span_append] at hbound
    rw [sFreeBlock, dynHeaderSize, sub32_eq (Nat.le_add_left _ _), Nat.add_sub_cancel, ← htarget]
    exact hcompact
  · refine ⟨⟨hregroup _ ▸ hchain, ?_, ?_⟩, ?_, takenTiles (arena.start + 8) front,
      takenTiles (arena.start + 8 + span front + (joined lefts block rights).size) back, ?_, ?_⟩
    · have htiles := hholds.tiles
      simp only [span_append, span_cons] at htiles ⊢
      omega
    · have hapart := isChain_guard_cons hholds.apart
      rw [hold] at hapart
      obtain ⟨hpre, hrest, -⟩ := List.isChain_append.mp hapart
      have hbackApart : back.IsChain NotBothFree :=
        hrest.suffix ⟨left :: (lefts ++ block :: rights), by simp⟩
      have hnew := isChain_taken_between hpre
        (@isChain_cons_of_headTaken (joined lefts block rights) _ hbackApart hback) hleft
      rw [← hregroup] at hnew
      exact hnew.tail
    · rw [hold, hregroup]
      exact hchanges.mono fun header hheader ↦ List.mem_append_left _ hheader
    · rw [takenTiles_append, takenTiles_append, takenTiles_allFree hlefts, List.append_nil,
        takenTiles_cons_taken htaken, takenTiles_append, takenTiles_allFree hrights, List.nil_append,
        span_append]
      have hend : arena.start + 8 + (span front + span lefts) + block.size + span rights =
          arena.start + 8 + span front + (joined lefts block rights).size := by omega
      rw [hend]
      rfl
    · rw [takenTiles_append, takenTiles_cons_free rfl]
      rfl

/-! ### Taking a block -/

/-- A block gets an owner; the memory may be marked. -/
theorem ArenaHolds.replace {other : Memory} {new : Block}
    (hholds : ArenaHolds mem arena (before ++ block :: after)) (hsize : new.size = block.size)
    (htaken : new.taken = true)
    (hheader : ∀ next prev, HeaderAt mem (arena.start + 8 + span before) block.taken next prev →
      HeaderAt other (arena.start + 8 + span before) true next prev)
    (hchanges : ChangesOnly [arena.start + 8 + span before] mem other) :
    ArenaHolds other arena (before ++ new :: after) := by
  refine ⟨?_, ?_, ?_⟩
  · rw [← span_guard] at hheader hchanges
    have hchain : Chain mem 0 arena.start ((guard :: before) ++ block :: after) := hholds.chain
    exact hchain.replace hsize (fun hblock ↦ htaken ▸ hheader _ _ hblock) hchanges
  · have htiles := hholds.tiles
    rw [span_append, span_cons] at htiles ⊢
    omega
  · obtain ⟨hbefore, hrest, -⟩ := List.isChain_append.mp hholds.apart
    exact isChain_taken_between hbefore (List.isChain_cons.mp hrest).2 htaken

/-- Splitting a taken block frees what is behind its first part. -/
theorem ArenaHolds.exists_split (hholds : ArenaHolds mem arena (before ++ block :: after))
    (htaken : block.taken = true) {kept : Block} (hkept : kept.taken = true)
    (hsize : kept.size + 16 ≤ block.size) :
    ∃ fuel other rest,
      sSplitBlock fuel mem (arena.start + 8 + span before) kept.size = some other ∧
        ArenaHolds other arena (before ++ kept :: rest) ∧
        ChangesOnly (headers arena.start (guard :: (before ++ block :: after)) ++
          headers arena.start (guard :: (before ++ kept :: rest))) mem other ∧
        takenTiles (arena.start + 8 + span before + kept.size) rest =
          takenTiles (arena.start + 8 + span before + block.size) after := by
  obtain ⟨rights, back, rfl, hrights, hback⟩ := exists_back after
  have hchain : Chain mem 0 arena.start ((guard :: before) ++ block :: (rights ++ back)) :=
    hholds.chain
  obtain ⟨fuel, other, hsplit, hnew, hchanges⟩ := exists_sSplitBlock hchain htaken hkept hsize
    hrights hback (linkable_start arena) hholds.bound
  have hrest : (joined [] (remainder block kept hsize false) rights).size =
      block.size - kept.size + span rights := by
    change span _ = _
    rw [span_append, span_cons]
    exact Nat.zero_add _
  refine ⟨fuel, other, joined [] (remainder block kept hsize false) rights :: back,
    span_guard arena before ▸ hsplit, ⟨hnew, ?_, ?_⟩, hchanges, ?_⟩
  · have htiles := hholds.tiles
    simp only [span_append, span_cons] at htiles ⊢
    omega
  · obtain ⟨hbefore, hafter, -⟩ := List.isChain_append.mp hholds.apart
    exact isChain_taken_between hbefore
      (isChain_cons_of_headTaken (hafter.suffix ⟨block :: rights, by simp⟩) hback) hkept
  · rw [takenTiles_cons_free rfl, takenTiles_append, takenTiles_allFree hrights, List.nil_append,
      hrest]
    congr 1
    omega

/-- The taken blocks of a list that is taken apart at a block. -/
theorem takenTiles_split (addr : ℕ) (before after : List Block) (block : Block) :
    takenTiles addr (before ++ block :: after) = takenTiles addr before ++
      ((if block.taken then some block else none).toList.map (addr + span before, ·) ++
        takenTiles (addr + span before + block.size) after) := by
  rw [takenTiles_append]
  cases htaken : block.taken with
  | true => rw [takenTiles_cons_taken htaken]; rfl
  | false => rw [takenTiles_cons_free htaken]; rfl

/-- The search goes through the blocks of an arena and ends with the smallest free block that is
large enough, if there is one. -/
theorem exists_runLoop_bestFit {prev addr need : ℕ} {blocks : List Block} {best : BestFit}
    (hchain : Chain mem prev addr blocks) (haddr : 0 < addr) :
    ∃ fuel found, runLoop (bestFitBody mem need) fuel (addr, best) = some found ∧
      (found = best ∨ ∃ before block after, blocks = before ++ block :: after ∧
        block.taken = false ∧ need ≤ block.size ∧ found = ⟨addr + span before, block.size⟩) ∧
      found.minsize ≤ best.minsize ∧
      ∀ block ∈ blocks, block.taken = false → need ≤ block.size → found.minsize ≤ block.size := by
  induction blocks generalizing prev addr best with
  | nil =>
    have hfree : sIsBlockFree mem addr = false := hchain.2.free_eq
    have hnext : sGetNextBlock mem addr = 0 := hchain.2.next_eq
    have hfirst : Continues (bestFitBody mem need) (addr, best) (0, best) := by
      simp only [Continues, bestFitBody, Nat.ne_of_gt haddr, if_false, BestFit.improve, hfree, hnext,
        Bool.false_eq_true]
    refine ⟨2, best, ?_, .inl rfl, Nat.le_refl _, fun _ hmem ↦ absurd hmem List.not_mem_nil⟩
    rw [runLoop_of_continues hfirst]
    exact runLoop_of_leaves rfl 0
  | cons block blocks ih =>
    obtain ⟨hblock, hrest⟩ := chain_cons.mp hchain
    have hblockLe := block.header_le
    obtain ⟨fuel, found, hloop, hcases, hle, hmin⟩ :=
      @ih addr (addr + block.size) (best.improve mem need addr) hrest (by omega)
    have hbody : Continues (bestFitBody mem need) (addr, best)
        (addr + block.size, best.improve mem need addr) := by
      rw [Continues, bestFitBody, if_neg (Nat.ne_of_gt haddr), hblock.next_eq]
    have hsize := hblock.blockSize (by omega)
    have himprove : (best.improve mem need addr = best ∧
          (block.taken = false → need ≤ block.size → best.minsize ≤ block.size)) ∨
        (best.improve mem need addr = ⟨addr, block.size⟩ ∧ block.taken = false ∧
          need ≤ block.size ∧ block.size < best.minsize) := by
      rw [BestFit.improve, hblock.free_eq, hsize]
      cases htaken : block.taken with
      | true => exact .inl ⟨rfl, fun hfalse ↦ by cases hfalse⟩
      | false =>
        by_cases hfits : need ≤ block.size ∧ block.size < best.minsize
        · exact .inr ⟨(if_pos rfl).trans (if_pos hfits), rfl, hfits.1, hfits.2⟩
        · exact .inl ⟨(if_pos rfl).trans (if_neg hfits), fun _ hneed ↦ by omega⟩
    refine ⟨fuel + 1, found, (runLoop_of_continues hbody _).trans hloop, ?_, ?_, ?_⟩
    · obtain rfl | ⟨before, other, after, rfl, hfree, hneed, rfl⟩ := hcases
      · obtain ⟨hsame, -⟩ | ⟨hnew, hfree, hneed, -⟩ := himprove
        · exact .inl hsame
        · exact .inr ⟨[], block, blocks, rfl, hfree, hneed, hnew⟩
      · refine .inr ⟨block :: before, other, after, rfl, hfree, hneed, ?_⟩
        rw [span_cons, Nat.add_assoc]
    · obtain ⟨hsame, -⟩ | ⟨hnew, -, -, hlt⟩ := himprove
      · rwa [hsame] at hle
      · rw [hnew] at hle
        simp only at hle
        omega
    · refine List.forall_mem_cons.mpr ⟨fun hfree hneed ↦ ?_, hmin⟩
      obtain ⟨hsame, hbest⟩ | ⟨hnew, -, -, -⟩ := himprove
      · rw [hsame] at hle
        exact hle.trans (hbest hfree hneed)
      · rwa [hnew] at hle

end Operations

end Elua.Salloc
