import Elua.Salloc.Allocator
import Elua.Salloc.Blocks
import Mathlib.Data.List.Induction

/-!
# Joining and splitting blocks

`exists_sCompactFree` says what freeing a block does to a chain: the run of free blocks around it
becomes one block. `exists_sSplitBlock` says the same of splitting a taken block, which frees what
is split off. Both change nothing but headers of the chain before or after. -/

set_option autoImplicit false
set_option relaxedAutoImplicit false

namespace Elua.Salloc

open Foundation

/-- A block without its owner. -/
def Block.released (block : Block) : Block :=
  ⟨block.size, none, block.size_mod, block.header_le, nofun⟩

/-- The free block that takes the place of a run of blocks. -/
def joined (lefts : List Block) (block : Block) (rights : List Block) : Block :=
  ⟨span (lefts ++ block :: rights), none, span_mod _, by
    have hblock := block.header_le
    rw [span_append, span_cons]
    omega, nofun⟩

/-- All blocks of a list are free. -/
def AllFree (blocks : List Block) : Prop := ∀ block ∈ blocks, block.taken = false

section Walks

variable {mem : Memory} {prev addr : ℕ}

/-- The walk back over a run of free blocks ends at the taken block in front of it. -/
theorem exists_runLoop_prevTaken {run : List Block} (hlinks : Links mem prev addr run)
    (hfree : AllFree run) (htaken : sIsBlockFree mem prev = false) :
    ∃ fuel, runLoop (prevTakenBody mem) fuel (lastFrom prev addr run) = some prev := by
  induction run using List.reverseRecOn with
  | nil => exact ⟨1, runLoop_of_leaves (by simp [prevTakenBody, lastFrom, htaken]) 0⟩
  | append_singleton run block ih =>
    obtain ⟨hrun, hblock, -⟩ := links_append.mp hlinks
    obtain ⟨fuel, hwalk⟩ := ih hrun fun other hother ↦ hfree other (List.mem_append_left _ hother)
    rw [hfree block (List.mem_append_right _ (List.mem_singleton.mpr rfl))] at hblock
    have hbody : Continues (prevTakenBody mem) (addr + span run) (lastFrom prev addr run) := by
      rw [Continues, prevTakenBody, hblock.free_eq, hblock.prev_eq]
      rfl
    refine ⟨fuel + 1, ?_⟩
    rw [lastFrom_append, show lastFrom (lastFrom prev addr run) (addr + span run) [block] =
      addr + span run from rfl, runLoop_of_continues hbody]
    exact hwalk

/-- The walk on over a run of free blocks ends behind it. -/
theorem exists_runLoop_nextTaken {run back : List Block}
    (hchain : Chain mem prev addr (run ++ back)) (hfree : AllFree run) (hback : HeadTaken back) :
    ∃ fuel, runLoop (nextTakenBody mem) fuel addr = some (addr + span run) := by
  induction run generalizing prev addr with
  | nil =>
    obtain ⟨next, hheader⟩ := hchain.head_taken hback
    exact ⟨1, runLoop_of_leaves (by simp [nextTakenBody, hheader.free_eq]) 0⟩
  | cons block run ih =>
    obtain ⟨hblock, hrest⟩ := chain_cons.mp hchain
    obtain ⟨hblockFree, hrunFree⟩ := List.forall_mem_cons.mp hfree
    obtain ⟨fuel, hwalk⟩ := ih hrest hrunFree
    rw [hblockFree] at hblock
    have hbody : Continues (nextTakenBody mem) addr (addr + block.size) := by
      rw [Continues, nextTakenBody, hblock.free_eq, hblock.next_eq]
      rfl
    refine ⟨fuel + 1, ?_⟩
    rw [runLoop_of_continues hbody, hwalk, span_cons, Nat.add_assoc]

end Walks

/-! ### Joining -/

section Joining

variable {mem : Memory} {prev addr : ℕ}

/-- Only an empty list ends before it begins. -/
theorem eq_nil_of_lastFrom {blocks : List Block} (hprev : prev < addr)
    (hlast : lastFrom prev addr blocks = prev) : blocks = [] := by
  induction blocks using List.reverseRecOn with
  | nil => rfl
  | append_singleton blocks block _ =>
    rw [lastFrom_append] at hlast
    have hlast : addr + span blocks = prev := hlast
    omega

/-- Linking a run of free blocks makes it one block. -/
theorem Chain.linkRun {lefts rights back : List Block} {block : Block}
    (hchain : Chain mem prev addr (lefts ++ block :: (rights ++ back))) (hlefts : AllFree lefts)
    (hblock : block.taken = false) (haddr : Linkable addr)
    (hbound : addr + span (lefts ++ block :: rights) < 2 ^ 32) :
    Chain (sLinkRun mem (addr + span lefts) addr (addr + span (lefts ++ block :: rights))) prev addr
        (joined lefts block rights :: back) ∧
      ChangesOnly [addr, addr + span (lefts ++ block :: rights)] mem
        (sLinkRun mem (addr + span lefts) addr (addr + span (lefts ++ block :: rights))) := by
  have hblockLe := block.header_le
  have hmod := span_mod (lefts ++ block :: rights)
  have hspan : span (lefts ++ block :: rights) = span lefts + (block.size + span rights) := by
    rw [span_append, span_cons]
  have hregroup : lefts ++ block :: (rights ++ back) = (lefts ++ block :: rights) ++ back := by
    rw [List.append_assoc, List.cons_append]
  have hfirst : ∃ next, HeaderAt mem addr false next prev := by
    cases lefts with
    | nil => exact ⟨_, hblock ▸ (chain_cons.mp hchain).1⟩
    | cons left lefts =>
      exact ⟨_, hlefts left List.mem_cons_self ▸ (chain_cons.mp hchain).1⟩
  rw [hregroup] at hchain
  obtain ⟨hlinks, hback⟩ := chain_append.mp hchain
  generalize htarget : addr + span (lefts ++ block :: rights) = target at *
  have htargetLink : Linkable target := ⟨by have := haddr.1; omega, hbound⟩
  unfold sLinkRun
  split_ifs with hneeded
  · obtain ⟨next, hheader⟩ := hfirst
    have hsetNext := changesOnly_setNext mem addr target
    have hsetPrev := changesOnly_setPrev (sSetNextBlock mem addr target) target addr
    refine ⟨chain_cons.mpr ?_, ?_⟩
    · have hjoined : addr + (joined lefts block rights).size = target := htarget
      rw [hjoined]
      refine ⟨(hheader.setNext htargetLink).congr (hsetPrev.agreeOn_one (.inl (by omega))), ?_⟩
      exact (hback.congr_interval (hsetNext.agreeOn_one (.inr (by omega)))).setPrev haddr
    · exact (hsetNext.mono (by simp)).trans (hsetPrev.mono (by simp))
  · -- the run is the block alone, and its links are as they should be
    rw [not_or, not_not, not_not] at hneeded
    obtain ⟨hstart, hlast⟩ := hneeded
    obtain rfl : lefts = [] := eq_nil_of_span_eq_zero (by omega)
    obtain rfl : rights = [] := by
      have hprev : sGetPrevBlock mem target = lastFrom addr (addr + block.size) rights := by
        cases back with
        | nil => exact hback.2.prev_eq
        | cons other back => exact (chain_cons.mp hback).1.prev_eq
      rw [← hstart] at hlast
      exact eq_nil_of_lastFrom (by omega) (hprev.symm.trans hlast)
    refine ⟨?_, .refl _ _⟩
    have hsame : joined [] block [] = block.released := by
      unfold joined Block.released
      congr 1
    rw [hsame]
    have hsingle : Chain mem prev addr ([] ++ block :: back) := hchain
    refine hsingle.replace rfl (fun hheader ↦ ?_) (.refl _ _)
    rwa [hblock] at hheader

/-- The joined block depends on the size of the block only. -/
theorem joined_congr {block other : Block} (hsize : other.size = block.size)
    (lefts rights : List Block) : joined lefts other rights = joined lefts block rights := by
  unfold joined
  congr 1
  rw [span_append, span_append, span_cons, span_cons, hsize]

/-- Freeing a block joins the free blocks around it. -/
theorem exists_sCompactFree {pre lefts rights back : List Block} {left block : Block}
    (hchain : Chain mem prev addr (pre ++ left :: (lefts ++ block :: (rights ++ back))))
    (hleft : left.taken = true) (hlefts : AllFree lefts) (hrights : AllFree rights)
    (hback : HeadTaken back) (haddr : Linkable addr)
    (hbound : addr + span (pre ++ left :: (lefts ++ block :: (rights ++ back))) < 2 ^ 32) :
    ∃ fuel other, sCompactFree fuel mem (addr + span (pre ++ left :: lefts)) = some other ∧
      Chain other prev addr (pre ++ left :: joined lefts block rights :: back) ∧
      ChangesOnly (headers addr (pre ++ left :: (lefts ++ block :: (rights ++ back)))) mem other := by
  have hleftLe := left.header_le
  have hblockLe := block.header_le
  have hpreMod := span_mod pre
  have hleftMod := left.size_mod
  have hchanges := changesOnly_markFree mem (addr + span (pre ++ left :: lefts))
  have hregroup : pre ++ left :: (lefts ++ block :: (rights ++ back)) =
      (pre ++ left :: lefts) ++ block :: (rights ++ back) := by
    rw [List.append_assoc, List.cons_append]
  rw [hregroup] at hchain
  have hmarked := @Chain.replace _ (sMarkBlockFree mem (addr + span (pre ++ left :: lefts))) _ _ _ _
    _ block.released hchain rfl (fun hheader ↦ hheader.markFree) hchanges
  rw [List.append_assoc, List.cons_append] at hmarked
  unfold sCompactFree
  simp only
  generalize sMarkBlockFree mem (addr + span (pre ++ left :: lefts)) = marked at *
  obtain ⟨hpre, hrest⟩ := chain_append.mp hmarked
  obtain ⟨hheader, hrun⟩ := chain_cons.mp hrest
  rw [hleft] at hheader
  have hfirst : addr + span (pre ++ left :: lefts) = addr + span pre + left.size + span lefts := by
    rw [span_append, span_cons]
    omega
  -- the walk back ends at the taken block, the walk on behind the free ones
  obtain ⟨hlinks, hfromBlock⟩ := chain_append.mp hrun
  have hwalkBack : ∃ fuel, runLoop (prevTakenBody marked) fuel (addr + span (pre ++ left :: lefts)) =
      some (addr + span pre) := by
    have hto : Links marked (addr + span pre) (addr + span pre + left.size)
        (lefts ++ [block.released]) :=
      links_append.mpr ⟨hlinks, (chain_cons.mp hfromBlock).1, trivial⟩
    have hwalk := exists_runLoop_prevTaken hto
      (List.forall_mem_append.mpr ⟨hlefts, List.forall_mem_singleton.mpr rfl⟩)
      (by rw [hheader.free_eq]; rfl)
    rw [lastFrom_append] at hwalk
    exact hfirst ▸ hwalk
  have hwalkOn : ∃ fuel, runLoop (nextTakenBody marked) fuel (addr + span (pre ++ left :: lefts)) =
      some (addr + span pre + left.size + span (lefts ++ block.released :: rights)) := by
    have hon : Chain marked _ _ ((block.released :: rights) ++ back) := hfromBlock
    obtain ⟨fuel, hwalk⟩ := exists_runLoop_nextTaken hon (List.forall_mem_cons.mpr ⟨rfl, hrights⟩) hback
    refine ⟨fuel, ?_⟩
    rw [hfirst, hwalk, span_append, Nat.add_assoc _ (span lefts)]
  obtain ⟨fuel, hwalkBack⟩ := hwalkBack
  obtain ⟨more, hwalkOn⟩ := hwalkOn
  have hend : addr + span pre + left.size + span (lefts ++ block.released :: rights) < 2 ^ 32 := by
    simp only [span_append, span_cons] at hbound ⊢
    have hsame : block.released.size = block.size := rfl
    omega
  obtain ⟨hlinked, hlinkChanges⟩ := hrun.linkRun hlefts rfl
    ⟨by have := haddr.1; omega, by omega⟩ hend
  refine ⟨max fuel more, sLinkRun marked (addr + span pre + left.size + span lefts)
    (addr + span pre + left.size)
    (addr + span pre + left.size + span (lefts ++ block.released :: rights)), ?_, ?_, ?_⟩
  · rw [runLoop_mono (Nat.le_max_left fuel more) hwalkBack, Option.bind_some,
      runLoop_mono (Nat.le_max_right fuel more) hwalkOn, Option.map_some, hheader.next_eq, hfirst]
  · refine chain_append.mpr ⟨hpre.congr_interval (hlinkChanges.agreeOn ?_), chain_cons.mpr
      ⟨hleft ▸ hheader.congr (hlinkChanges.agreeOn ?_), @joined_congr block block.released rfl lefts rights ▸ hlinked⟩⟩
    · simp only [List.forall_mem_cons, List.not_mem_nil, false_imp_iff, implies_true, and_true]
      omega
    · simp only [List.forall_mem_cons, List.not_mem_nil, false_imp_iff, implies_true, and_true]
      omega
  · refine (hchanges.mono ?_).trans (hlinkChanges.mono ?_)
    · refine List.forall_mem_singleton.mpr ?_
      rw [hregroup]
      exact split_mem_headers _ _ _
    · have htarget : addr + span pre + left.size + span (lefts ++ block.released :: rights) =
          addr + span ((pre ++ left :: lefts) ++ block :: rights) := by
        simp only [span_append, span_cons]
        have hsame : block.released.size = block.size := rfl
        omega
      have hstart : addr + span pre + left.size = addr + span (pre ++ [left]) := by
        rw [span_append, span_cons]
        exact Nat.add_assoc _ _ _
      refine List.forall_mem_cons.mpr ⟨?_, List.forall_mem_singleton.mpr ?_⟩
      · rw [hstart, ← List.singleton_append, ← List.append_assoc]
        exact split_mem_headers _ _ _
      · rw [htarget, hregroup, ← List.cons_append, ← List.append_assoc]
        exact split_mem_headers _ _ _

end Joining

/-! ### Splitting -/

/-- What is left of a block behind the part that is kept, before it is freed: the memory there may
be marked as taken or not. -/
def remainder (block kept : Block) (hsize : kept.size + 16 ≤ block.size) (taken : Bool) : Block where
  size := block.size - kept.size
  owner := if taken then some 0 else none
  size_mod := by
    have hblock := block.size_mod
    have hkept := kept.size_mod
    omega
  header_le := by omega
  owner_le := fun request hrequest ↦ by
    cases taken with
    | false => cases hrequest
    | true =>
      obtain rfl := Option.some.inj hrequest
      omega

section Splitting

variable {mem : Memory} {prev addr : ℕ} {pre tail : List Block} {block kept : Block}

/-- The links that splitting a block writes. -/
def splitLinks (mem : Memory) (pblock temp next : ℕ) : Memory :=
  sSetNextBlock (sSetPrevBlock (sSetNextBlock (sSetPrevBlock mem temp pblock) temp next) next temp)
    pblock temp

theorem taken_remainder (hsize : kept.size + 16 ≤ block.size) (taken : Bool) :
    (remainder block kept hsize taken).taken = taken := by
  cases taken <;> rfl

/-- The links make the block two blocks, the second of which is marked in some way. -/
theorem Chain.splitLinks (hchain : Chain mem prev addr (pre ++ block :: tail))
    (htaken : block.taken = true) (hkept : kept.taken = true)
    (hsize : kept.size + 16 ≤ block.size) (haddr : Linkable addr)
    (hbound : addr + span (pre ++ block :: tail) < 2 ^ 32) :
    ∃ taken, Chain (splitLinks mem (addr + span pre) (addr + span pre + kept.size)
        (addr + span pre + block.size)) prev addr
          (pre ++ kept :: remainder block kept hsize taken :: tail) ∧
      ChangesOnly [addr + span pre, addr + span pre + kept.size, addr + span pre + block.size] mem
        (splitLinks mem (addr + span pre) (addr + span pre + kept.size)
          (addr + span pre + block.size)) := by
  have hkeptLe := kept.header_le
  have hpreMod := span_mod pre
  have hkeptMod := kept.size_mod
  have hblockMod := block.size_mod
  have haddrMod := haddr.1
  rw [span_append, span_cons] at hbound
  obtain ⟨hpre, hrest⟩ := chain_append.mp hchain
  obtain ⟨hblock, htail⟩ := chain_cons.mp hrest
  rw [htaken] at hblock
  unfold Salloc.splitLinks
  generalize hpblock : addr + span pre = pblock at *
  have hlinkBlock : Linkable pblock := ⟨by omega, by omega⟩
  have hlinkTemp : Linkable (pblock + kept.size) := ⟨by omega, by omega⟩
  have hlinkNext : Linkable (pblock + block.size) := ⟨by omega, by omega⟩
  have hfirst := changesOnly_setPrev mem (pblock + kept.size) pblock
  have htemp := (headerAt_self mem (pblock + kept.size)).setPrev hlinkBlock
  generalize sSetPrevBlock mem (pblock + kept.size) pblock = mem₁ at *
  have hsecond := changesOnly_setNext mem₁ (pblock + kept.size) (pblock + block.size)
  have htemp := htemp.setNext hlinkNext
  generalize sSetNextBlock mem₁ (pblock + kept.size) (pblock + block.size) = mem₂ at *
  have hboth := hfirst.trans hsecond
  have htail := (htail.congr_interval (hboth.agreeOn_one (.inr (by omega)))).setPrev hlinkTemp
  have hthird := changesOnly_setPrev mem₂ (pblock + block.size) (pblock + kept.size)
  have hblock := hblock.congr (hboth.agreeOn_one (.inl (by omega)))
  generalize sSetPrevBlock mem₂ (pblock + block.size) (pblock + kept.size) = mem₃ at *
  have hfourth := changesOnly_setNext mem₃ pblock (pblock + kept.size)
  have hblock := (hblock.congr (hthird.agreeOn_one (.inl (by omega)))).setNext hlinkTemp
  have htemp := (htemp.congr (hthird.agreeOn_one (.inl (by omega)))).congr
    (hfourth.agreeOn_one (.inr (by omega)))
  have htail := htail.congr_interval (hfourth.agreeOn_one (.inr (by omega)))
  generalize sSetNextBlock mem₃ pblock (pblock + kept.size) = mem₄ at *
  have hall : ChangesOnly [pblock, pblock + kept.size, pblock + block.size] mem mem₄ :=
    ((hboth.mono (by simp)).trans (hthird.mono (by simp))).trans (hfourth.mono (by simp))
  have hend : ∀ taken, pblock + kept.size + (remainder block kept hsize taken).size =
      pblock + block.size := fun taken ↦ by
    rw [Nat.add_assoc]
    exact congrArg (pblock + ·) (Nat.add_sub_cancel' (by omega))
  refine ⟨!sIsBlockFree mem (pblock + kept.size), ?_, hall⟩
  refine chain_append.mpr ⟨hpre.congr_interval (hall.agreeOn ?_), chain_cons.mpr ⟨?_,
    chain_cons.mpr ⟨?_, ?_⟩⟩⟩
  · simp only [List.forall_mem_cons, List.not_mem_nil, false_imp_iff, implies_true, and_true]
    omega
  · rw [hpblock, hkept]
    exact hblock
  · rw [hpblock, hend, taken_remainder]
    exact htemp
  · rw [hpblock, hend]
    exact htail

/-- Splitting a taken block keeps its first part and frees what is behind it. -/
theorem exists_sSplitBlock {rights back : List Block}
    (hchain : Chain mem prev addr (pre ++ block :: (rights ++ back)))
    (htaken : block.taken = true) (hkept : kept.taken = true)
    (hsize : kept.size + 16 ≤ block.size) (hrights : AllFree rights) (hback : HeadTaken back)
    (haddr : Linkable addr) (hbound : addr + span (pre ++ block :: (rights ++ back)) < 2 ^ 32) :
    ∃ fuel other, sSplitBlock fuel mem (addr + span pre) kept.size = some other ∧
      Chain other prev addr
        (pre ++ kept :: joined [] (remainder block kept hsize false) rights :: back) ∧
      ChangesOnly (headers addr (pre ++ block :: (rights ++ back)) ++
        headers addr (pre ++ kept :: joined [] (remainder block kept hsize false) rights :: back))
        mem other := by
  obtain ⟨taken, hsplit, hlinkChanges⟩ := hchain.splitLinks htaken hkept hsize haddr hbound
  have hnext : sGetNextBlock mem (addr + span pre) = addr + span pre + block.size :=
    (chain_cons.mp (chain_append.mp hchain).2).1.next_eq
  have hkeptSize : block.size = kept.size + (remainder block kept hsize taken).size :=
    (Nat.add_sub_cancel' (Nat.le_of_add_right_le hsize)).symm
  have hboundSplit : addr + span (pre ++ kept :: remainder block kept hsize taken ::
      (rights ++ back)) < 2 ^ 32 := by
    simp only [span_append, span_cons] at hbound ⊢
    omega
  have htemp : add32 (addr + span pre) kept.size = addr + span pre + kept.size := by
    simp only [span_append, span_cons] at hbound
    exact add32_eq (by omega)
  have hposition : addr + span (pre ++ kept :: []) = addr + span pre + kept.size := by
    rw [span_append, span_cons, ← Nat.add_assoc]
    rfl
  obtain ⟨fuel, other, hcompact, hjoined, hchanges⟩ := @exists_sCompactFree _ _ _ pre [] rights
    back kept (remainder block kept hsize taken) hsplit hkept nofun hrights hback haddr hboundSplit
  refine ⟨fuel, other, ?_, ?_, ?_⟩
  · rw [sSplitBlock]
    simp only [hnext, htemp]
    rw [hposition] at hcompact
    exact hcompact
  · rw [joined_congr (show (remainder block kept hsize false).size =
      (remainder block kept hsize taken).size from rfl)]
    exact hjoined
  · have hold : addr + span pre + block.size ∈ headers addr (pre ++ block :: (rights ++ back)) := by
      have hmem := split_mem_headers addr (pre ++ [block]) (rights ++ back)
      rwa [List.append_assoc, span_append, ← Nat.add_assoc] at hmem
    have hnew : addr + span pre + kept.size ∈ headers addr
        (pre ++ kept :: joined [] (remainder block kept hsize false) rights :: back) := by
      have hmem := split_mem_headers addr (pre ++ [kept])
        (joined [] (remainder block kept hsize false) rights :: back)
      rwa [List.append_assoc, hposition] at hmem
    refine (hlinkChanges.mono ?_).trans (hchanges.mono ?_)
    · refine List.forall_mem_cons.mpr ⟨List.mem_append_left _ (split_mem_headers _ _ _),
        List.forall_mem_cons.mpr ⟨List.mem_append_right _ hnew,
          List.forall_mem_singleton.mpr (List.mem_append_left _ hold)⟩⟩
    · intro header hheader
      rw [List.nil_append, headers_append, headers_cons, headers_cons, Nat.add_assoc (addr + span pre),
        ← hkeptSize] at hheader
      obtain hheader | hheader := List.mem_append.mp hheader
      · refine List.mem_append_left _ ?_
        rw [headers_append]
        exact List.mem_append_left _ hheader
      · obtain rfl | hheader := List.mem_cons.mp hheader
        · exact List.mem_append_left _ (split_mem_headers _ _ _)
        · obtain rfl | hheader := List.mem_cons.mp hheader
          · exact List.mem_append_right _ hnew
          · refine List.mem_append_left _ ?_
            rw [headers_append, headers_cons]
            exact List.mem_append_right _ (List.mem_cons_of_mem _ hheader)

end Splitting

end Elua.Salloc
