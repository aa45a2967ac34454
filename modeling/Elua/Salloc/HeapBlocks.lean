import Elua.Salloc.ArenaSteps
import Mathlib.Data.List.Pairwise
import Mathlib.Logic.Function.Basic

/-!
# The blocks of a heap

`HeapHolds ram mem taken` says that every arena of a heap is tiled by blocks, and that `taken` gives
the taken block of every payload. An operation on one arena leaves the other arenas alone, so it
changes `taken` at one payload and keeps the bytes of every other payload (`Preserves`).
-/

set_option autoImplicit false
set_option relaxedAutoImplicit false

namespace Elua.Salloc

open Foundation

/-! ### What a heap holds -/

/-- Two arenas that do not overlap. -/
def Arena.Apart (first second : Arena) : Prop :=
  first.finish ≤ second.start ∨ second.finish ≤ first.start

/-- The bytes of a block behind its header. -/
def Block.capacity (block : Block) : ℕ := block.size - 8

/-- The arenas hold the blocks of a layout, of which `taken` are the taken ones. -/
structure LaidOut (ram : List Arena) (mem : Memory) (layout : Arena → List Block)
    (taken : ℕ → Option Block) : Prop where
  arenas : ∀ arena ∈ ram, ArenaHolds mem arena (layout arena)
  taken_iff : ∀ ptr block, taken ptr = some block ↔ ∃ arena ∈ ram, ∃ addr,
    (addr, block) ∈ takenTiles (arena.start + 8) (layout arena) ∧ ptr = addr + 8

/-- The arenas hold blocks, of which `taken` are the taken ones. -/
def HeapHolds (ram : List Arena) (mem : Memory) (taken : ℕ → Option Block) : Prop :=
  ∃ layout, LaidOut ram mem layout taken

/-- The payloads of taken blocks stay as they are, but for one. -/
def Preserves (taken : ℕ → Option Block) (given : ℕ) (mem other : Memory) : Prop :=
  ∀ ptr block, taken ptr = some block → ptr ≠ given → AgreeOn mem other ptr (ptr + block.capacity)

/-- No free block of a heap has room for a request. -/
def NoneLargeEnough (ram : List Arena) (mem : Memory) (size : ℕ) : Prop :=
  ∀ arena ∈ ram, ∀ blocks, ArenaHolds mem arena blocks →
    ∀ block ∈ blocks, block.taken = false → block.size < size + 8

/-! ### Tiles and headers -/

section Tiles

variable {mem other : Memory} {arena : Arena} {old new : List Block} {addr : ℕ}
  {gone come : Option Block}

/-- Headers stand where blocks begin and end. -/
theorem header_apart {blocks : List Block} {tile : ℕ × Block}
    (htile : tile ∈ placed Block.size addr blocks) {header : ℕ} (hheader : header ∈ headers addr blocks) :
    header ≤ tile.1 ∨ tile.1 + tile.2.size ≤ header := by
  obtain hheader | hheader := List.mem_append.mp hheader
  · obtain ⟨other, hother, rfl⟩ := List.mem_map.mp hheader
    obtain rfl | hbefore | hafter := eq_or_apart_of_mem_placed htile hother
    · exact .inl (Nat.le_refl _)
    · exact .inr hbefore
    · exact .inl (by omega)
  · have hbounds := bounds_of_mem_blocks htile
    rw [List.mem_singleton.mp hheader]
    exact .inr hbounds.2

/-- No header of an arena lies in the payload of a block. -/
theorem payload_apart {tile : ℕ × Block}
    (htile : tile ∈ placed Block.size (arena.start + 8) old) {header : ℕ}
    (hheader : header ∈ headers arena.start (guard :: old)) :
    tile.1 + tile.2.size ≤ header ∨ header + 8 ≤ tile.1 + 8 := by
  have hbounds := bounds_of_mem_blocks htile
  rw [headers_cons] at hheader
  obtain rfl | hheader := List.mem_cons.mp hheader
  · exact .inr (by omega)
  · have happart := header_apart htile hheader
    omega

/-- The headers of an arena lie inside it. -/
theorem ArenaHolds.header_bounds (hholds : ArenaHolds mem arena old) {header : ℕ}
    (hheader : header ∈ headers arena.start (guard :: old)) :
    arena.start ≤ header ∧ header + 8 ≤ arena.finish := by
  have hbounds := bounds_of_mem_headers hheader
  have htiles := hholds.tiles
  rw [span_guard] at hbounds
  omega

/-- A block of an arena lies inside it. -/
theorem ArenaHolds.tile_bounds (hholds : ArenaHolds mem arena old) {tile : ℕ × Block}
    (htile : tile ∈ takenTiles (arena.start + 8) old) :
    arena.start + 8 ≤ tile.1 ∧ tile.1 + tile.2.size + 8 ≤ arena.finish := by
  have hbounds := bounds_of_mem_blocks (mem_takenTiles.mp htile).1
  have htiles := hholds.tiles
  omega

/-- What an arena holds depends on the bytes between its ends. -/
theorem ArenaHolds.congr (hholds : ArenaHolds mem arena old)
    (hagree : AgreeOn mem other arena.start arena.finish) : ArenaHolds other arena old := by
  refine ⟨hholds.chain.congr fun header hheader ↦ ?_, hholds.tiles, hholds.apart⟩
  have hbounds := hholds.header_bounds hheader
  exact hagree.mono hbounds.1 hbounds.2

/-- A step changes nothing outside the arena. -/
theorem ArenaStep.agreeOn_outside (hold : ArenaHolds mem arena old)
    (hstep : ArenaStep arena mem other old new addr gone come) {start finish : ℕ}
    (houtside : finish ≤ arena.start ∨ arena.finish ≤ start) : AgreeOn mem other start finish := by
  refine hstep.changes.agreeOn (List.forall_mem_append.mpr ⟨fun header hheader ↦ ?_,
    fun header hheader ↦ ?_⟩)
  · have hbounds := hold.header_bounds hheader
    omega
  · have hbounds := hstep.holds.header_bounds hheader
    omega

/-- A step changes nothing in what is payload before and after. -/
theorem ArenaStep.agreeOn_payload (hstep : ArenaStep arena mem other old new addr gone come)
    {first second : Block} {place : ℕ} (hfirst : (place, first) ∈ takenTiles (arena.start + 8) old)
    (hsecond : (place, second) ∈ takenTiles (arena.start + 8) new) (hle : second.size ≤ first.size) :
    AgreeOn mem other (place + 8) (place + 8 + second.capacity) := by
  have hlarge := second.header_le
  have hend : place + 8 + second.capacity = place + second.size := by
    rw [Block.capacity]
    omega
  rw [hend]
  refine hstep.changes.agreeOn (List.forall_mem_append.mpr ⟨fun header hheader ↦ ?_,
    fun header hheader ↦ payload_apart (mem_takenTiles.mp hsecond).1 hheader⟩)
  have hapart := payload_apart (mem_takenTiles.mp hfirst).1 hheader
  simp only at hapart
  omega

/-- The addresses of taken blocks increase. -/
theorem takenTiles_sorted (addr : ℕ) (blocks : List Block) :
    (takenTiles addr blocks).Pairwise fun first second ↦ first.1 < second.1 := by
  refine ((@pairwise_placed _ Block.size addr blocks).imp fun {first second} hle ↦ ?_).filter _
  have hheader := first.2.header_le
  omega

/-- Only one block of a sorted list is at its address. -/
theorem ne_of_sorted {before after : List (ℕ × Block)} {block : Block}
    (hsorted : (before ++ (addr, block) :: after).Pairwise fun first second ↦ first.1 < second.1) :
    ∀ tile ∈ before ++ after, tile.1 ≠ addr := by
  obtain ⟨-, hrest, hbefore⟩ := List.pairwise_append.mp hsorted
  refine List.forall_mem_append.mpr ⟨fun tile htile ↦ ?_, fun tile htile ↦ ?_⟩
  · exact Nat.ne_of_lt (hbefore tile htile _ List.mem_cons_self)
  · exact Nat.ne_of_gt ((List.pairwise_cons.mp hrest).1 tile htile)

/-- The taken blocks before and after a step are the same at all other addresses. -/
theorem ArenaStep.exists_others (hstep : ArenaStep arena mem other old new addr gone come)
    (hone : gone.isSome ∨ come.isSome) :
    ∃ others : List (ℕ × Block), (∀ tile ∈ others, tile.1 ≠ addr) ∧
      (∀ tile, tile ∈ takenTiles (arena.start + 8) old ↔
        tile ∈ others ∨ tile.1 = addr ∧ gone = some tile.2) ∧
      ∀ tile, tile ∈ takenTiles (arena.start + 8) new ↔
        tile ∈ others ∨ tile.1 = addr ∧ come = some tile.2 := by
  obtain ⟨before, after, hold, hnew⟩ := hstep.taken
  have hmem : ∀ (block : Option Block) (tile : ℕ × Block),
      tile ∈ before ++ (block.toList.map (addr, ·) ++ after) ↔
        tile ∈ before ++ after ∨ tile.1 = addr ∧ block = some tile.2 := by
    intro block tile
    cases block with
    | none => simp
    | some block =>
      obtain ⟨place, other⟩ := tile
      simp only [Option.toList_some, List.map_cons, List.map_nil, List.mem_append, List.mem_singleton,
        Prod.mk.injEq, Option.some.injEq]
      tauto
  refine ⟨before ++ after, ?_, fun tile ↦ hold ▸ hmem gone tile, fun tile ↦ hnew ▸ hmem come tile⟩
  obtain hgone | hcome := hone
  · obtain ⟨block, rfl⟩ := Option.isSome_iff_exists.mp hgone
    exact ne_of_sorted (hold ▸ takenTiles_sorted _ old :)
  · obtain ⟨block, rfl⟩ := Option.isSome_iff_exists.mp hcome
    exact ne_of_sorted (hnew ▸ takenTiles_sorted _ new :)

end Tiles

/-! ### One step in a heap -/

section Steps

variable {ram : List Arena} {mem other : Memory} {layout : Arena → List Block}
  {taken : ℕ → Option Block} {arena : Arena}

/-- Two arenas of a heap do not overlap. -/
theorem apart_of_mem (hram : ram.Pairwise Arena.Apart) {first second : Arena} (hfirst : first ∈ ram)
    (hsecond : second ∈ ram) (hne : first ≠ second) : first.Apart second := by
  refine List.Pairwise.forall_of_forall_of_flip
    (R := fun first second ↦ first ≠ second → Arena.Apart first second)
    (fun _ _ hself ↦ absurd rfl hself) ?_ ?_ hfirst hsecond hne
  · exact hram.imp fun {first second} hapart (_ : first ≠ second) ↦ hapart
  · exact hram.imp fun {first second} hapart (_ : second ≠ first) ↦ hapart.symm

/-- A payload belongs to a block of an arena. -/
theorem LaidOut.exists_split (hheap : LaidOut ram mem layout taken) {ptr : ℕ} {block : Block}
    (hptr : taken ptr = some block) :
    ∃ arena ∈ ram, ∃ before after, layout arena = before ++ block :: after ∧ block.taken = true ∧
      ptr = arena.start + 8 + span before + 8 := by
  obtain ⟨arena, harena, addr, htile, rfl⟩ := (hheap.taken_iff ptr block).mp hptr
  obtain ⟨htile, htaken⟩ := mem_takenTiles.mp htile
  obtain ⟨before, after, hsplit, haddr⟩ := exists_split_of_mem_placed htile
  exact ⟨arena, harena, before, after, hsplit, htaken, congrArg (· + 8) haddr⟩

/-- A step of one arena is a step of the heap. -/
theorem LaidOut.step (hram : ram.Pairwise Arena.Apart) (hheap : LaidOut ram mem layout taken)
    (harena : arena ∈ ram) {new : List Block} {addr : ℕ} {gone come : Option Block}
    (hstep : ArenaStep arena mem other (layout arena) new addr gone come)
    (hone : gone.isSome ∨ come.isSome) :
    taken (addr + 8) = gone ∧ HeapHolds ram other (Function.update taken (addr + 8) come) ∧
      Preserves taken (addr + 8) mem other := by
  obtain ⟨others, hothers, hold, hnew⟩ := hstep.exists_others hone
  have hholds := hheap.arenas arena harena
  have hinside : arena.start + 8 ≤ addr ∧ addr + 16 ≤ arena.finish := by
    obtain hgone | hcome := hone
    · obtain ⟨block, rfl⟩ := Option.isSome_iff_exists.mp hgone
      have hbounds := hholds.tile_bounds ((hold (addr, block)).mpr (.inr ⟨rfl, rfl⟩))
      have hsize := block.header_le
      simp only at hbounds
      omega
    · obtain ⟨block, rfl⟩ := Option.isSome_iff_exists.mp hcome
      have hbounds := hstep.holds.tile_bounds ((hnew (addr, block)).mpr (.inr ⟨rfl, rfl⟩))
      have hsize := block.header_le
      simp only at hbounds
      omega
  -- a block at the address of the step is a block of the same arena
  have hhere : ∀ second ∈ ram, ∀ block, (addr, block) ∈ takenTiles (second.start + 8) (layout second) →
      second = arena := by
    intro second hsecond block htile
    by_contra hne
    have happart := apart_of_mem hram hsecond harena hne
    have hbounds := (hheap.arenas second hsecond).tile_bounds htile
    have hsize := block.header_le
    simp only [Arena.Apart] at happart hbounds
    omega
  refine ⟨?_, ⟨Function.update layout arena new, ?_, ?_⟩, ?_⟩
  · refine Option.ext fun block ↦ ?_
    rw [hheap.taken_iff]
    constructor
    · rintro ⟨second, hsecond, place, htile, hplace⟩
      obtain rfl : addr = place := Nat.add_right_cancel hplace
      obtain rfl := hhere second hsecond block htile
      exact ((hold _).mp htile).elim (fun hother ↦ absurd rfl (hothers _ hother)) And.right
    · exact fun hgone ↦ ⟨arena, harena, addr, (hold _).mpr (.inr ⟨rfl, hgone⟩), rfl⟩
  · intro second hsecond
    by_cases hsame : second = arena
    · rw [hsame, Function.update_self]
      exact hstep.holds
    · rw [Function.update_of_ne hsame]
      exact (hheap.arenas second hsecond).congr (hstep.agreeOn_outside hholds
        (apart_of_mem hram hsecond harena hsame))
  · intro ptr block
    by_cases hptr : ptr = addr + 8
    · rw [hptr, Function.update_self]
      constructor
      · rintro hcome
        refine ⟨arena, harena, addr, ?_, rfl⟩
        rw [Function.update_self]
        exact (hnew _).mpr (.inr ⟨rfl, hcome⟩)
      · rintro ⟨second, hsecond, place, htile, hplace⟩
        obtain rfl : addr = place := Nat.add_right_cancel hplace
        by_cases hsame : second = arena
        · rw [hsame, Function.update_self] at htile
          exact ((hnew _).mp htile).elim (fun hother ↦ absurd rfl (hothers _ hother)) And.right
        · rw [Function.update_of_ne hsame] at htile
          exact absurd (hhere second hsecond block htile) hsame
    · rw [Function.update_of_ne hptr, hheap.taken_iff]
      refine exists_congr fun second ↦ and_congr_right fun hsecond ↦ exists_congr fun place ↦
        and_congr_left fun hplace ↦ ?_
      by_cases hsame : second = arena
      · have hne : place ≠ addr := fun heq ↦ hptr (heq ▸ hplace)
        rw [hsame, Function.update_self, hold, hnew]
        simp only [hne, false_and, or_false]
      · rw [Function.update_of_ne hsame]
  · intro ptr block hptr hne
    obtain ⟨second, hsecond, place, htile, rfl⟩ := (hheap.taken_iff ptr block).mp hptr
    by_cases hsame : second = arena
    · rw [hsame] at htile
      have hother : (place, block) ∈ others :=
        ((hold _).mp htile).resolve_right fun hhere ↦ hne (congrArg (· + 8) hhere.1)
      exact hstep.agreeOn_payload htile ((hnew _).mpr (.inl hother)) (Nat.le_refl _)
    · have hbounds := (hheap.arenas second hsecond).tile_bounds htile
      have hsize := block.header_le
      refine (hstep.agreeOn_outside hholds (apart_of_mem hram hsecond harena hsame)).mono ?_ ?_
      · omega
      · simp only [Block.capacity] at hbounds ⊢
        omega

end Steps

end Elua.Salloc
