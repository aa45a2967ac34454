import Elua.Salloc.HeapBlocks

/-!
# Operations on the blocks of a heap

What searching the arenas for a block, freeing a block, shrinking one, writing to a payload and
setting the arenas up do to the blocks of a heap.
-/

set_option autoImplicit false
set_option relaxedAutoImplicit false

namespace Elua.Salloc

open Foundation

variable {ram : List Arena} {mem other : Memory} {taken : ℕ → Option Block} {ptr : ℕ} {block : Block}

/-! ### Payloads -/

/-- The size of a payload is read from its header. -/
theorem HeapHolds.actualBlockSize (hheap : HeapHolds ram mem taken) (hptr : taken ptr = some block) :
    sGetActualBlockSize mem ptr = block.capacity := by
  obtain ⟨layout, hheap⟩ := hheap
  obtain ⟨arena, harena, before, after, hsplit, -, rfl⟩ := hheap.exists_split hptr
  exact (hsplit ▸ hheap.arenas arena harena).actualBlockSize

/-- A taken block has an owner, whose request fits into the payload. -/
theorem HeapHolds.exists_owner (hheap : HeapHolds ram mem taken) (hptr : taken ptr = some block) :
    ∃ request, block.owner = some request ∧ request ≤ block.capacity := by
  obtain ⟨layout, hheap⟩ := hheap
  obtain ⟨-, -, -, -, -, htaken, -⟩ := hheap.exists_split hptr
  obtain ⟨request, howner⟩ := Option.isSome_iff_exists.mp htaken
  exact ⟨request, howner, Nat.le_sub_of_add_le (block.owner_le request howner)⟩

/-- A payload lies inside an arena, behind a guard and a header and in front of a guard. -/
theorem HeapHolds.bounds (hheap : HeapHolds ram mem taken) (hptr : taken ptr = some block) :
    ∃ arena ∈ ram, arena.start + 16 ≤ ptr ∧ ptr + block.capacity + 8 ≤ arena.finish := by
  obtain ⟨layout, hheap⟩ := hheap
  obtain ⟨arena, harena, addr, htile, rfl⟩ := (hheap.taken_iff ptr block).mp hptr
  have hbounds := (hheap.arenas arena harena).tile_bounds htile
  have hsize := block.header_le
  refine ⟨arena, harena, by omega, ?_⟩
  simp only [Block.capacity] at hbounds ⊢
  omega

/-- Payloads do not overlap. -/
theorem HeapHolds.apart (hram : ram.Pairwise Arena.Apart) (hheap : HeapHolds ram mem taken)
    {second : ℕ} {secondBlock : Block} (hptr : taken ptr = some block)
    (hsecond : taken second = some secondBlock) (hne : ptr ≠ second) :
    ptr + block.capacity ≤ second ∨ second + secondBlock.capacity ≤ ptr := by
  obtain ⟨layout, hheap⟩ := hheap
  obtain ⟨arena, harena, addr, htile, rfl⟩ := (hheap.taken_iff ptr block).mp hptr
  obtain ⟨other, hother, place, hplace, rfl⟩ := (hheap.taken_iff second secondBlock).mp hsecond
  have hsize := block.header_le
  have hsecondSize := secondBlock.header_le
  simp only [Block.capacity]
  by_cases hsame : other = arena
  · rw [hsame] at hplace
    obtain hsame | hapart | hapart :=
      eq_or_apart_of_mem_placed (mem_takenTiles.mp htile).1 (mem_takenTiles.mp hplace).1
    · exact absurd (congrArg (·.1 + 8) hsame) hne
    · simp only at hapart
      omega
    · simp only at hapart
      omega
  · have hapart := apart_of_mem hram hother harena hsame
    have hbounds := (hheap.arenas arena harena).tile_bounds htile
    have hsecondBounds := (hheap.arenas other hother).tile_bounds hplace
    simp only [Arena.Apart] at hapart hbounds hsecondBounds
    omega

/-- Writing to a payload changes no block. -/
theorem HeapHolds.write (hram : ram.Pairwise Arena.Apart) (hheap : HeapHolds ram mem taken)
    (hptr : taken ptr = some block)
    (houtside : ∀ addr, addr < ptr ∨ ptr + block.capacity ≤ addr → other addr = mem addr) :
    HeapHolds ram other taken ∧ Preserves taken ptr mem other := by
  have hpreserves : Preserves taken ptr mem other := by
    intro second secondBlock hsecond hne addr hstart hfinish
    have hapart := hheap.apart hram hptr hsecond hne.symm
    exact houtside addr (by omega)
  obtain ⟨layout, hheap⟩ := hheap
  refine ⟨⟨layout, fun second hsecond ↦ ?_, hheap.taken_iff⟩, hpreserves⟩
  obtain ⟨arena, harena, addr, htile, rfl⟩ := (hheap.taken_iff ptr block).mp hptr
  have hsize := block.header_le
  rw [Block.capacity] at houtside
  by_cases hsame : second = arena
  · rw [hsame]
    obtain ⟨hchain, htiles, hapart⟩ := hheap.arenas arena harena
    refine ⟨hchain.congr fun header hheader place hstart hfinish ↦ houtside place ?_, htiles, hapart⟩
    have hheader := payload_apart (mem_takenTiles.mp htile).1 hheader
    simp only at hheader
    omega
  · have hapart := apart_of_mem hram hsecond harena hsame
    have hbounds := (hheap.arenas arena harena).tile_bounds htile
    refine (hheap.arenas second hsecond).congr fun place hstart hfinish ↦ houtside place ?_
    simp only [Arena.Apart] at hapart hbounds
    omega

/-! ### Allocating -/

/-- A search that finds nothing had nothing to find. -/
theorem small_of_sGetFreeBlock {arena : Arena} {fuel size : ℕ} (hpos : 0 < size)
    (hlt : size + 16 ≤ 2 ^ 32) (hresult : sGetFreeBlock fuel mem size arena.start = some (0, mem))
    {blocks : List Block} (hholds : ArenaHolds mem arena blocks) :
    ∀ block ∈ blocks, block.taken = false → block.size < size + 8 := by
  obtain ⟨-, -, hsmall⟩ | ⟨more, addr, other, -, -, hfound, -⟩ :=
    hholds.exists_sGetFreeBlock hpos hlt
  · exact hsmall
  · have hsame := (fuelMono_sGetFreeBlock mem arena.start size).unique hresult hfound
    exact absurd (congrArg Prod.fst hsame) (Nat.succ_ne_zero _).symm

/-- Searching some of the arenas of a heap. -/
theorem HeapHolds.exists_smallocFrom (hram : ram.Pairwise Arena.Apart)
    (hheap : HeapHolds ram mem taken) {size : ℕ} (hpos : 0 < size) (hlt : size + 16 ≤ 2 ^ 32)
    {rest : List Arena} (hrest : ∀ arena ∈ rest, arena ∈ ram) :
    (∃ fuel, smallocFrom fuel mem size rest = some (0, mem) ∧ NoneLargeEnough rest mem size) ∨
      ∃ fuel found other block, smallocFrom fuel mem size rest = some (found, other) ∧ found ≠ 0 ∧
        taken found = none ∧ block.owner = some size ∧
        HeapHolds ram other (Function.update taken found (some block)) ∧
        Preserves taken found mem other := by
  induction rest with
  | nil => exact .inl ⟨0, rfl, nofun⟩
  | cons arena rest ih =>
    obtain ⟨harena, hrest⟩ := List.forall_mem_cons.mp hrest
    obtain ⟨layout, hlaid⟩ := hheap
    obtain ⟨fuel, hnothing, -⟩ | ⟨fuel, addr, other, new, block, hfound, hstep, howner⟩ :=
      (hlaid.arenas arena harena).exists_sGetFreeBlock hpos hlt
    · have hsearch : ∀ more, fuel ≤ more →
          smallocFrom more mem size (arena :: rest) = smallocFrom more mem size rest := by
        intro more hmore
        have hnothing := fuelMono_sGetFreeBlock _ _ _ hmore hnothing
        simp only at hnothing
        rw [smallocFrom, hnothing]
        rfl
      obtain ⟨more, hresult, hsmall⟩ | ⟨more, found, other, block, hresult, hfound⟩ := ih hrest
      · refine .inl ⟨max fuel more, (hsearch _ (Nat.le_max_left _ _)).trans
          (fuelMono_smallocFrom _ _ _ (Nat.le_max_right _ _) hresult), ?_⟩
        exact List.forall_mem_cons.mpr ⟨fun blocks hholds ↦
          small_of_sGetFreeBlock hpos hlt hnothing hholds, hsmall⟩
      · exact .inr ⟨max fuel more, found, other, block, (hsearch _ (Nat.le_max_left _ _)).trans
          (fuelMono_smallocFrom _ _ _ (Nat.le_max_right _ _) hresult), hfound⟩
    · obtain ⟨hfresh, hholds, hpreserves⟩ := hlaid.step hram harena hstep (.inr rfl)
      refine .inr ⟨fuel, addr + 8, other, block, ?_, Nat.succ_ne_zero _, hfresh, howner, hholds,
        hpreserves⟩
      rw [smallocFrom, hfound]
      rfl

/-! ### Freeing and shrinking -/

/-- Freeing a taken block. -/
theorem HeapHolds.exists_sFreeBlock (hram : ram.Pairwise Arena.Apart)
    (hheap : HeapHolds ram mem taken) (hptr : taken ptr = some block) :
    ∃ fuel other, sFreeBlock fuel mem ptr = some other ∧
      HeapHolds ram other (Function.update taken ptr none) ∧ Preserves taken ptr mem other := by
  obtain ⟨layout, hlaid⟩ := hheap
  obtain ⟨arena, harena, before, after, hsplit, htaken, rfl⟩ := hlaid.exists_split hptr
  obtain ⟨fuel, other, new, hresult, hstep⟩ :=
    (hsplit ▸ hlaid.arenas arena harena).exists_free htaken
  rw [← hsplit] at hstep
  exact ⟨fuel, other, hresult, (hlaid.step hram harena hstep (.inl rfl)).2⟩

/-- A taken block gets a new request that fits into its payload. -/
theorem HeapHolds.exists_retag (hram : ram.Pairwise Arena.Apart) (hheap : HeapHolds ram mem taken)
    (hptr : taken ptr = some block) {size : ℕ} (hsize : size ≤ block.capacity) :
    ∃ kept, kept.owner = some size ∧ HeapHolds ram mem (Function.update taken ptr (some kept)) := by
  have hheader := block.header_le
  obtain ⟨layout, hlaid⟩ := hheap
  obtain ⟨arena, harena, before, after, hsplit, htaken, rfl⟩ := hlaid.exists_split hptr
  have hstep := (hsplit ▸ hlaid.arenas arena harena).retag_step htaken
    (show size + 8 ≤ block.size by rw [Block.capacity] at hsize; omega)
  rw [← hsplit] at hstep
  exact ⟨_, rfl, (hlaid.step hram harena hstep (.inl rfl)).2.1⟩

/-- Shrinking a taken block. -/
theorem HeapHolds.exists_sShrinkBlock (hram : ram.Pairwise Arena.Apart)
    (hheap : HeapHolds ram mem taken) (hptr : taken ptr = some block) {size : ℕ}
    (hsize : size ≤ block.capacity) :
    ∃ fuel other kept, sShrinkBlock fuel mem ptr size = some other ∧ kept.owner = some size ∧
      HeapHolds ram other (Function.update taken ptr (some kept)) ∧ Preserves taken ptr mem other ∧
      AgreeOn mem other ptr (ptr + kept.capacity) := by
  have hheader := block.header_le
  obtain ⟨layout, hlaid⟩ := hheap
  obtain ⟨arena, harena, before, after, hsplit, htaken, rfl⟩ := hlaid.exists_split hptr
  obtain ⟨fuel, other, new, kept, hresult, hstep, howner, hkept⟩ :=
    (hsplit ▸ hlaid.arenas arena harena).exists_sShrinkBlock htaken
      (show size + 8 ≤ block.size by rw [Block.capacity] at hsize; omega)
  rw [← hsplit] at hstep
  obtain ⟨others, -, hold, hnew⟩ := hstep.exists_others (.inl rfl)
  obtain ⟨-, hholds, hpreserves⟩ := hlaid.step hram harena hstep (.inl rfl)
  exact ⟨fuel, other, kept, hresult, howner, hholds, hpreserves, hstep.agreeOn_payload
    ((hold _).mpr (.inr ⟨rfl, rfl⟩)) ((hnew _).mpr (.inr ⟨rfl, rfl⟩)) hkept⟩

/-! ### Setting up -/

/-- Setting arenas up leaves an arena alone that is apart from them. -/
theorem agreeOn_foldl_initArena {arena : Arena} {rest : List Arena}
    (hrest : ∀ second ∈ rest, arena.Apart second) :
    AgreeOn mem (rest.foldl initArena mem) arena.start arena.finish := by
  induction rest generalizing mem with
  | nil => exact .refl _ _ _
  | cons second rest ih =>
    obtain ⟨hsecond, hrest⟩ := List.forall_mem_cons.mp hrest
    have hroom := second.room
    refine .trans ((changesOnly_initArena mem second).agreeOn ?_) (ih hrest)
    rw [Arena.Apart] at hsecond
    simp only [List.forall_mem_cons, List.not_mem_nil, false_imp_iff, implies_true, and_true]
    omega

/-- Every arena that is set up is one free block. -/
theorem arenaHolds_foldl_initArena (hram : ram.Pairwise Arena.Apart) {arena : Arena}
    (harena : arena ∈ ram) (hroom : arena.start + 24 ≤ arena.finish) :
    ArenaHolds (ram.foldl initArena mem) arena [wholeBlock arena hroom] := by
  induction ram generalizing mem with
  | nil => cases harena
  | cons first rest ih =>
    obtain ⟨hfirst, hrest⟩ := List.pairwise_cons.mp hram
    obtain rfl | harena := List.mem_cons.mp harena
    · exact (arenaHolds_initArena mem arena hroom).congr (agreeOn_foldl_initArena hfirst)
    · exact ih hrest harena

/-- A heap that has been set up has no taken block. -/
theorem heapHolds_sInit (hram : ram.Pairwise Arena.Apart)
    (hroom : ∀ arena ∈ ram, arena.start + 24 ≤ arena.finish) (heap : Heap) :
    HeapHolds ram (sInit ram heap).mem fun _ ↦ none := by
  refine ⟨fun arena ↦ if hroom : arena.start + 24 ≤ arena.finish then [wholeBlock arena hroom] else [],
    fun arena harena ↦ ?_, fun ptr block ↦ ⟨nofun, ?_⟩⟩
  · rw [dif_pos (hroom arena harena)]
    exact arenaHolds_foldl_initArena hram harena _
  · rintro ⟨arena, harena, addr, htile, -⟩
    rw [dif_pos (hroom arena harena), takenTiles_cons_free rfl] at htile
    cases htile

/-! ### All blocks freed -/

/-- Without taken blocks, an arena is one free block. -/
theorem HeapHolds.exists_single (hheap : HeapHolds ram mem taken) (hnone : ∀ ptr, taken ptr = none)
    {arena : Arena} (harena : arena ∈ ram) (hroom : arena.start + 24 ≤ arena.finish) :
    ∃ block : Block, block.taken = false ∧ ArenaHolds mem arena [block] := by
  obtain ⟨layout, hheap⟩ := hheap
  have hholds := hheap.arenas arena harena
  have hfree : AllFree (layout arena) := by
    intro block hblock
    by_contra htaken
    obtain ⟨before, after, hsplit⟩ := List.append_of_mem hblock
    have htile : (arena.start + 8 + span before, block) ∈
        takenTiles (arena.start + 8) (layout arena) := by
      rw [hsplit, takenTiles_append, takenTiles_cons_taken (Bool.eq_true_of_not_eq_false htaken)]
      exact List.mem_append_right _ List.mem_cons_self
    have hsome := (hheap.taken_iff _ block).mpr ⟨arena, harena, _, htile, rfl⟩
    rw [hnone] at hsome
    cases hsome
  have htiles := hholds.tiles
  match hlayout : layout arena with
  | [] =>
    rw [hlayout] at htiles
    change arena.start + 8 + 0 + 8 = arena.finish at htiles
    omega
  | [block] =>
    exact ⟨block, hfree block (hlayout ▸ List.mem_singleton.mpr rfl), hlayout ▸ hholds⟩
  | first :: second :: blocks =>
    have hapart := hholds.apart
    rw [hlayout] at hapart hfree
    obtain ⟨hfirst, hrest⟩ := List.forall_mem_cons.mp hfree
    obtain hfalse | hfalse := (List.isChain_cons.mp hapart).1 second rfl
    · exact absurd (hfirst.symm.trans hfalse) Bool.false_ne_true
    · exact absurd ((hrest second List.mem_cons_self).symm.trans hfalse) Bool.false_ne_true

end Elua.Salloc
