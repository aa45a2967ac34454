import Elua.Foundation.Tiling
import Elua.Salloc.Header

/-!
# Lists of blocks in memory

A `Block` is what a block of the heap stands for: its size, and the size that was requested if it is
taken. `Chain mem prev addr blocks` says that the memory holds the blocks one behind the other from
an address on, linked in both directions, and behind them the guard at the end. A chain can be taken
apart at any block (`chain_append`), it depends on its headers only (`Chain.congr`), and a write to
the header of its first block changes the link back (`Chain.setPrev`).
-/

set_option autoImplicit false
set_option relaxedAutoImplicit false

namespace Elua.Salloc

open Foundation

/-! ### Blocks -/

/-- A block: its size with the header, and the requested size if it is taken. -/
structure Block where
  size : ℕ
  owner : Option ℕ
  size_mod : size % 8 = 0
  header_le : 8 ≤ size
  /-- The payload is as large as requested. -/
  owner_le : ∀ request ∈ owner, request + 8 ≤ size

/-- Whether the block is taken. -/
def Block.taken (block : Block) : Bool := block.owner.isSome

/-- The guard at the start of an arena. -/
def guard : Block := ⟨8, some 0, rfl, Nat.le_refl 8, fun _ hrequest ↦ by
  obtain rfl := Option.some.inj hrequest
  exact Nat.le_refl 8⟩

/-- The bytes that blocks take. -/
abbrev span (blocks : List Block) : ℕ := extent Block.size blocks

theorem span_cons (block : Block) (blocks : List Block) :
    span (block :: blocks) = block.size + span blocks :=
  extent_cons ..

theorem span_append (firsts seconds : List Block) :
    span (firsts ++ seconds) = span firsts + span seconds :=
  extent_append ..

theorem span_mod (blocks : List Block) : span blocks % 8 = 0 := by
  induction blocks with
  | nil => rfl
  | cons block blocks ih =>
    have hblock := block.size_mod
    rw [span_cons]
    omega

/-- Blocks that are not none take bytes. -/
theorem eq_nil_of_span_eq_zero {blocks : List Block} (hspan : span blocks = 0) : blocks = [] := by
  cases blocks with
  | nil => rfl
  | cons block blocks =>
    have hblock := block.header_le
    rw [span_cons] at hspan
    omega

/-! ### Links -/

/-- The address of the last block, or that of the block before the first. -/
def lastFrom : ℕ → ℕ → List Block → ℕ
  | prev, _, [] => prev
  | _, addr, block :: blocks => lastFrom addr (addr + block.size) blocks

/-- The memory holds the headers of the blocks, the first of which is at an address. -/
def Links (mem : Memory) : ℕ → ℕ → List Block → Prop
  | _, _, [] => True
  | prev, addr, block :: blocks =>
    HeaderAt mem addr block.taken (addr + block.size) prev ∧
      Links mem addr (addr + block.size) blocks

/-- The memory holds the headers of the blocks and the guard at the end. -/
def Chain (mem : Memory) (prev addr : ℕ) (blocks : List Block) : Prop :=
  Links mem prev addr blocks ∧ HeaderAt mem (addr + span blocks) true 0 (lastFrom prev addr blocks)

/-- The addresses of the headers of the blocks and of the guard at the end. -/
def headers (addr : ℕ) (blocks : List Block) : List ℕ :=
  (placed Block.size addr blocks).map Prod.fst ++ [addr + span blocks]

theorem lastFrom_append (prev addr : ℕ) (firsts seconds : List Block) :
    lastFrom prev addr (firsts ++ seconds) =
      lastFrom (lastFrom prev addr firsts) (addr + span firsts) seconds := by
  induction firsts generalizing prev addr with
  | nil => rfl
  | cons block firsts ih =>
    rw [List.cons_append, lastFrom, lastFrom, ih, span_cons, Nat.add_assoc]

theorem links_append {mem : Memory} {prev addr : ℕ} {firsts seconds : List Block} :
    Links mem prev addr (firsts ++ seconds) ↔ Links mem prev addr firsts ∧
      Links mem (lastFrom prev addr firsts) (addr + span firsts) seconds := by
  induction firsts generalizing prev addr with
  | nil => exact ⟨fun hlinks ↦ ⟨trivial, hlinks⟩, And.right⟩
  | cons block firsts ih =>
    rw [List.cons_append, Links, Links, ih, and_assoc, lastFrom, span_cons, Nat.add_assoc]

/-- A chain is taken apart. -/
theorem chain_append {mem : Memory} {prev addr : ℕ} {firsts seconds : List Block} :
    Chain mem prev addr (firsts ++ seconds) ↔ Links mem prev addr firsts ∧
      Chain mem (lastFrom prev addr firsts) (addr + span firsts) seconds := by
  rw [Chain, Chain, links_append, and_assoc, lastFrom_append, span_append, Nat.add_assoc]

theorem chain_cons {mem : Memory} {prev addr : ℕ} {block : Block} {blocks : List Block} :
    Chain mem prev addr (block :: blocks) ↔
      HeaderAt mem addr block.taken (addr + block.size) prev ∧
        Chain mem addr (addr + block.size) blocks := by
  rw [Chain, Chain, Links, and_assoc, lastFrom, span_cons, Nat.add_assoc]

theorem headers_append (addr : ℕ) (firsts seconds : List Block) :
    headers addr (firsts ++ seconds) = (placed Block.size addr firsts).map Prod.fst ++
      headers (addr + span firsts) seconds := by
  rw [headers, headers, placed_append, List.map_append, List.append_assoc, span_append,
    Nat.add_assoc]

theorem headers_cons (addr : ℕ) (block : Block) (blocks : List Block) :
    headers addr (block :: blocks) = addr :: headers (addr + block.size) blocks := by
  rw [← List.singleton_append, headers_append]
  simp only [extent_cons, extent_nil, Nat.add_zero, placed, List.map_cons, List.map_nil,
    List.singleton_append]

/-- A block lies inside the interval of its list. -/
theorem bounds_of_mem_blocks {addr : ℕ} {blocks : List Block} {tile : ℕ × Block}
    (htile : tile ∈ placed Block.size addr blocks) :
    addr ≤ tile.1 ∧ tile.1 + tile.2.size ≤ addr + span blocks :=
  bounds_of_mem_placed htile

/-- Headers stand between the first block and the guard. -/
theorem bounds_of_mem_headers {addr header : ℕ} {blocks : List Block}
    (hheader : header ∈ headers addr blocks) : addr ≤ header ∧ header ≤ addr + span blocks := by
  obtain hheader | hheader := List.mem_append.mp hheader
  · obtain ⟨tile, htile, rfl⟩ := List.mem_map.mp hheader
    have hbounds := bounds_of_mem_blocks htile
    omega
  · rw [List.mem_singleton.mp hheader]
    exact ⟨Nat.le_add_right _ _, Nat.le_refl _⟩

/-- Where a list is taken apart, there is a header. -/
theorem split_mem_headers (addr : ℕ) (firsts seconds : List Block) :
    addr + span firsts ∈ headers addr (firsts ++ seconds) := by
  rw [headers_append]
  refine List.mem_append_right _ ?_
  cases seconds with
  | nil => exact List.mem_singleton.mpr rfl
  | cons block seconds => exact headers_cons _ block seconds ▸ List.mem_cons_self

/-! ### What chains depend on -/

section Frames

variable {mem other : Memory} {prev addr : ℕ} {blocks : List Block}

theorem Links.congr (hlinks : Links mem prev addr blocks)
    (hagree : ∀ tile ∈ placed Block.size addr blocks, AgreeOn mem other tile.1 (tile.1 + 8)) :
    Links other prev addr blocks := by
  induction blocks generalizing prev addr with
  | nil => trivial
  | cons block blocks ih =>
    obtain ⟨hfirst, hrest⟩ := List.forall_mem_cons.mp hagree
    exact ⟨hlinks.1.congr hfirst, ih hlinks.2 hrest⟩

/-- A chain depends on its headers. -/
theorem Chain.congr (hchain : Chain mem prev addr blocks)
    (hagree : ∀ header ∈ headers addr blocks, AgreeOn mem other header (header + 8)) :
    Chain other prev addr blocks := by
  refine ⟨hchain.1.congr fun tile htile ↦ hagree tile.1 ?_, hchain.2.congr (hagree _ ?_)⟩
  · exact List.mem_append_left _ (List.mem_map_of_mem htile)
  · exact List.mem_append_right _ (List.mem_singleton.mpr rfl)

/-- Links survive when nothing changes where their blocks are. -/
theorem Links.congr_interval (hlinks : Links mem prev addr blocks)
    (hagree : AgreeOn mem other addr (addr + span blocks)) : Links other prev addr blocks := by
  refine hlinks.congr fun tile htile ↦ ?_
  have hbounds := bounds_of_mem_blocks htile
  have hheader := tile.2.header_le
  exact hagree.mono hbounds.1 (by omega)

/-- A chain survives when nothing changes where its blocks and its guard are. -/
theorem Chain.congr_interval (hchain : Chain mem prev addr blocks)
    (hagree : AgreeOn mem other addr (addr + span blocks + 8)) : Chain other prev addr blocks :=
  hchain.congr fun _ hheader ↦
    have hbounds := bounds_of_mem_headers hheader
    hagree.mono hbounds.1 (by omega)

/-- Writing the first link back of a chain. -/
theorem Chain.setPrev (hchain : Chain mem prev addr blocks) {target : ℕ}
    (htarget : Linkable target) : Chain (sSetPrevBlock mem addr target) target addr blocks := by
  cases blocks with
  | nil => exact ⟨trivial, hchain.2.setPrev htarget⟩
  | cons block blocks =>
    obtain ⟨hheader, hrest⟩ := chain_cons.mp hchain
    have hsize := block.header_le
    exact chain_cons.mpr ⟨hheader.setPrev htarget,
      hrest.congr_interval ((changesOnly_setPrev mem addr target).agreeOn_one (.inr (by omega)))⟩

/-- A block of a chain is replaced by one of the same size whose header is written. -/
theorem Chain.replace {before after : List Block} {block new : Block}
    (hchain : Chain mem prev addr (before ++ block :: after)) (hsize : new.size = block.size)
    (hheader : HeaderAt mem (addr + span before) block.taken (addr + span before + block.size)
        (lastFrom prev addr before) →
      HeaderAt other (addr + span before) new.taken (addr + span before + block.size)
        (lastFrom prev addr before))
    (hchanges : ChangesOnly [addr + span before] mem other) :
    Chain other prev addr (before ++ new :: after) := by
  have hheaderLe := block.header_le
  obtain ⟨hbefore, hrest⟩ := chain_append.mp hchain
  obtain ⟨hblock, hafter⟩ := chain_cons.mp hrest
  refine chain_append.mpr ⟨hbefore.congr_interval (hchanges.agreeOn_one (.inl (Nat.le_refl _))),
    chain_cons.mpr ?_⟩
  rw [hsize]
  exact ⟨hheader hblock, hafter.congr_interval (hchanges.agreeOn_one (.inr (by omega)))⟩

/-- The blocks behind a run of free blocks begin with a taken block, or with the guard. -/
def HeadTaken (blocks : List Block) : Prop := ∀ block ∈ blocks.head?, block.taken = true

/-- The header at the start of a chain that begins with a taken block or the guard. -/
theorem Chain.head_taken (hchain : Chain mem prev addr blocks) (htaken : HeadTaken blocks) :
    ∃ next, HeaderAt mem addr true next prev := by
  cases blocks with
  | nil => exact ⟨_, hchain.2⟩
  | cons block blocks =>
    have hheader := (chain_cons.mp hchain).1
    rw [htaken block rfl] at hheader
    exact ⟨_, hheader⟩

end Frames

end Elua.Salloc
