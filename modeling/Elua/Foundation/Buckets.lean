import Mathlib.Data.List.GetD
import Mathlib.Data.List.Perm.Basic

/-!
# Vectors of chains

A hash table with chaining keeps its entries in a vector of chains and puts each into the chain that
a function of the entry tells (`Placed`), so that only this chain has to be searched
(`Placed.mem_chain`). `perm_flatten_modify` is what a change of one chain does to all entries, and
`rehash` moves every entry to the chain that another function tells, one chain after the other and
within the same vector. It loses and copies none (`perm_rehash`) and leaves every entry in its place
(`placed_rehash`), also if the vector is cut behind the last of these places (`flatten_take`).
-/

set_option autoImplicit false
set_option relaxedAutoImplicit false

namespace Elua.Foundation.Buckets

variable {Entry : Type*} {place : Entry → ℕ} {buckets : List (List Entry)} {entry : Entry}

/-! ### Chains and their entries -/

/-- The chain at an index. -/
def chain (buckets : List (List Entry)) (i : ℕ) : List Entry := buckets.getD i []

/-- Every entry is in the chain that a function tells. -/
def Placed (place : Entry → ℕ) (buckets : List (List Entry)) : Prop :=
  ∀ i, ∀ entry ∈ chain buckets i, place entry = i

theorem lt_length_of_mem_chain {i : ℕ} (hmem : entry ∈ chain buckets i) : i < buckets.length := by
  by_contra hnot
  unfold chain at hmem
  rw [List.getD_eq_default _ _ (Nat.le_of_not_lt hnot)] at hmem
  exact absurd hmem List.not_mem_nil

theorem mem_flatten_iff : entry ∈ buckets.flatten ↔ ∃ i, entry ∈ chain buckets i := by
  unfold chain
  rw [List.mem_flatten]
  constructor
  · rintro ⟨entries, hentries, hmem⟩
    obtain ⟨i, hi, rfl⟩ := List.mem_iff_getElem.1 hentries
    exact ⟨i, by rwa [List.getD_eq_getElem _ _ hi]⟩
  · rintro ⟨i, hmem⟩
    have hi := lt_length_of_mem_chain hmem
    rw [List.getD_eq_getElem _ _ hi] at hmem
    exact ⟨buckets[i], List.getElem_mem hi, hmem⟩

/-- An entry is found in the chain that its place tells. -/
theorem Placed.mem_chain (hplaced : Placed place buckets) (hmem : entry ∈ buckets.flatten) :
    entry ∈ chain buckets (place entry) := by
  obtain ⟨i, hi⟩ := mem_flatten_iff.1 hmem
  rwa [hplaced i entry hi]

theorem Placed.congr {other : Entry → ℕ} (hplaced : Placed place buckets)
    (hsame : ∀ entry ∈ buckets.flatten, other entry = place entry) : Placed other buckets := by
  intro i entry hmem
  rw [hsame entry (mem_flatten_iff.2 ⟨i, hmem⟩)]
  exact hplaced i entry hmem

theorem chain_modify (i j : ℕ) (f : List Entry → List Entry) :
    chain (buckets.modify i f) j =
      if i = j ∧ j < buckets.length then f (chain buckets j) else chain buckets j := by
  unfold chain
  by_cases hj : j < buckets.length
  · rw [List.getD_eq_getElem _ _ hj,
      List.getD_eq_getElem _ _ (by rw [List.length_modify]; exact hj), List.getElem_modify]
    by_cases hij : i = j <;> simp [hij, hj]
  · rw [List.getD_eq_default _ _ (by rw [List.length_modify]; omega),
      List.getD_eq_default _ _ (by omega), if_neg fun hboth ↦ hj hboth.2]

/-- A chain is changed and keeps entries of this place only. -/
theorem Placed.modify (hplaced : Placed place buckets) {i : ℕ} {f : List Entry → List Entry}
    (hchanged : ∀ entry ∈ f (chain buckets i), place entry = i) :
    Placed place (buckets.modify i f) := by
  intro j entry hmem
  rw [chain_modify] at hmem
  split_ifs at hmem with hboth
  · obtain ⟨rfl, -⟩ := hboth
    exact hchanged entry hmem
  · exact hplaced j entry hmem

theorem chain_map (f : Entry → Entry) (i : ℕ) :
    chain (buckets.map (·.map f)) i = (chain buckets i).map f :=
  List.getD_map _ [] (List.map f)

/-- The entries are changed and keep their places. -/
theorem Placed.map (hplaced : Placed place buckets) {f : Entry → Entry}
    (hsame : ∀ entry, place (f entry) = place entry) : Placed place (buckets.map (·.map f)) := by
  intro i entry hmem
  rw [chain_map] at hmem
  obtain ⟨before, hbefore, rfl⟩ := List.mem_map.1 hmem
  rw [hsame]
  exact hplaced i before hbefore

/-- The entries are those of one chain and the others; a change of the chain leaves the others. -/
theorem perm_flatten_modify {i : ℕ} (hi : i < buckets.length) :
    ∃ others, buckets.flatten.Perm (chain buckets i ++ others) ∧
      ∀ f, (buckets.modify i f).flatten.Perm (f (chain buckets i) ++ others) := by
  refine ⟨(buckets.take i).flatten ++ (buckets.drop (i + 1)).flatten, ?_, fun f ↦ ?_⟩
  · have hsplit : buckets = buckets.take i ++ chain buckets i :: buckets.drop (i + 1) := by
      unfold chain
      rw [List.getD_eq_getElem _ _ hi, List.getElem_cons_drop, List.take_append_drop]
    conv_lhs => rw [hsplit]
    rw [List.flatten_append, List.flatten_cons]
    exact List.perm_append_comm_assoc _ _ _
  · have hsplit : buckets.modify i f =
        buckets.take i ++ f (chain buckets i) :: buckets.drop (i + 1) := by
      unfold chain
      rw [List.modify_eq_take_cons_drop hi, List.getD_eq_getElem _ _ hi]
    rw [hsplit, List.flatten_append, List.flatten_cons]
    exact List.perm_append_comm_assoc _ _ _

/-! ### Vectors made longer or shorter -/

theorem flatten_append_replicate (count : ℕ) :
    (buckets ++ List.replicate count []).flatten = buckets.flatten := by
  rw [List.flatten_append, List.flatten_replicate_nil, List.append_nil]

theorem chain_append_replicate (count i : ℕ) :
    chain (buckets ++ List.replicate count []) i = chain buckets i := by
  unfold chain
  by_cases hi : i < buckets.length
  · rw [List.getD_append _ _ _ _ hi]
  · rw [List.getD_append_right _ _ _ _ (by omega), List.getD_eq_getElem?_getD,
      List.getElem?_getD_replicate_default_eq, List.getD_eq_default _ _ (by omega)]

theorem chain_of_length_le {i : ℕ} (hle : buckets.length ≤ i) : chain buckets i = [] :=
  List.getD_eq_default _ _ hle

theorem chain_take (count i : ℕ) :
    chain (buckets.take count) i = if i < count then chain buckets i else [] := by
  unfold chain
  rw [List.getD_eq_getElem?_getD, List.getElem?_take]
  split_ifs
  · rw [List.getD_eq_getElem?_getD]
  · rfl

theorem Placed.take (hplaced : Placed place buckets) (count : ℕ) :
    Placed place (buckets.take count) := by
  intro i entry hmem
  rw [chain_take] at hmem
  split_ifs at hmem
  · exact hplaced i entry hmem
  · exact absurd hmem List.not_mem_nil

/-- Nothing is lost with the chains behind the last place. -/
theorem flatten_take (hplaced : Placed place buckets) {count : ℕ}
    (hplace : ∀ entry, place entry < count) : (buckets.take count).flatten = buckets.flatten := by
  have hdropped : (buckets.drop count).flatten = [] := by
    rw [List.eq_nil_iff_forall_not_mem]
    intro entry hmem
    obtain ⟨i, hi⟩ := mem_flatten_iff.1 hmem
    have hchain : entry ∈ chain buckets (count + i) := by
      unfold chain at hi ⊢
      rwa [List.getD_eq_getElem?_getD, List.getElem?_drop, ← List.getD_eq_getElem?_getD] at hi
    have hlt := hplace entry
    rw [hplaced _ entry hchain] at hlt
    omega
  conv_rhs => rw [← List.take_append_drop count buckets, List.flatten_append, hdropped,
    List.append_nil]

/-! ### Rehashing -/

/-- Puts entries at the heads of their chains, one after the other. -/
def distribute (place : Entry → ℕ) (buckets : List (List Entry)) (entries : List Entry) :
    List (List Entry) :=
  entries.foldl (fun buckets entry ↦ buckets.modify (place entry) (entry :: ·)) buckets

/-- Takes the entries of a chain and puts them into their chains. -/
def rehashChain (place : Entry → ℕ) (buckets : List (List Entry)) (i : ℕ) : List (List Entry) :=
  distribute place (buckets.set i []) (chain buckets i)

/-- Does so with the first chains, one after the other. -/
def rehash (place : Entry → ℕ) (buckets : List (List Entry)) (count : ℕ) : List (List Entry) :=
  (List.range count).foldl (rehashChain place) buckets

theorem rehash_succ (count : ℕ) :
    rehash place buckets (count + 1) = rehashChain place (rehash place buckets count) count := by
  unfold rehash
  rw [List.range_succ, List.foldl_append]
  rfl

@[simp] theorem length_distribute (entries : List Entry) :
    (distribute place buckets entries).length = buckets.length := by
  induction entries generalizing buckets with
  | nil => rfl
  | cons entry entries ih => exact ih.trans (List.length_modify ..)

@[simp] theorem length_rehash (count : ℕ) :
    (rehash place buckets count).length = buckets.length := by
  induction count with
  | zero => rfl
  | succ count ih => rw [rehash_succ, rehashChain, length_distribute, List.length_set, ih]

theorem perm_distribute (hplace : ∀ entry, place entry < buckets.length) (entries : List Entry) :
    (distribute place buckets entries).flatten.Perm (entries ++ buckets.flatten) := by
  induction entries generalizing buckets with
  | nil => exact .refl _
  | cons entry entries ih =>
    have hrest := @ih (buckets.modify (place entry) (entry :: ·)) (by simpa using hplace)
    obtain ⟨others, hbefore, hafter⟩ := perm_flatten_modify (hplace entry)
    have hone : (buckets.modify (place entry) (entry :: ·)).flatten.Perm
        (entry :: buckets.flatten) := (hafter _).trans (hbefore.symm.cons entry)
    exact hrest.trans ((hone.append_left entries).trans List.perm_middle)

/-- Rehashing loses no entry and makes none twice. -/
theorem perm_rehash (hplace : ∀ entry, place entry < buckets.length) {count : ℕ}
    (hcount : count ≤ buckets.length) : (rehash place buckets count).flatten.Perm buckets.flatten := by
  induction count with
  | zero => exact .refl _
  | succ count ih =>
    have hi : count < (rehash place buckets count).length := by
      rw [length_rehash]
      exact hcount
    obtain ⟨others, hbefore, hafter⟩ := perm_flatten_modify hi
    have hset : ((rehash place buckets count).set count []).flatten.Perm others := by
      rw [List.set_eq_modify]
      exact hafter _
    rw [rehash_succ, rehashChain]
    refine (perm_distribute (by simpa using hplace) _).trans ?_
    exact (hset.append_left _).trans (hbefore.symm.trans (ih (by omega)))

theorem mem_chain_distribute {entries : List Entry} {j : ℕ}
    (hmem : entry ∈ chain (distribute place buckets entries) j) :
    place entry = j ∨ entry ∈ chain buckets j := by
  induction entries generalizing buckets with
  | nil => exact .inr hmem
  | cons first entries ih =>
    rcases ih hmem with hplace | hold
    · exact .inl hplace
    · rw [chain_modify] at hold
      split_ifs at hold with hboth
      · rcases List.mem_cons.1 hold with rfl | hbefore
        · exact .inl hboth.1
        · exact .inr hbefore
      · exact .inr hold

/-- Rehashing the chains that are not empty leaves every entry in its place. -/
theorem placed_rehash {count : ℕ} (hempty : ∀ i, count ≤ i → chain buckets i = []) :
    Placed place (rehash place buckets count) := by
  have hturns : ∀ turns ≤ count, ∀ j, ∀ entry ∈ chain (rehash place buckets turns) j,
      place entry = j ∨ turns ≤ j ∧ entry ∈ chain buckets j := by
    intro turns
    induction turns with
    | zero => exact fun _ j entry hmem ↦ .inr ⟨Nat.zero_le j, hmem⟩
    | succ turns ih =>
      intro hturns j entry hmem
      rw [rehash_succ] at hmem
      rcases mem_chain_distribute hmem with hplace | hold
      · exact .inl hplace
      · rw [List.set_eq_modify, chain_modify] at hold
        split_ifs at hold with hboth
        · exact absurd hold List.not_mem_nil
        · rcases ih (by omega) j entry hold with hplace | ⟨hle, hold'⟩
          · exact .inl hplace
          · have hother : turns ≠ j := fun hsame ↦ hboth ⟨hsame, lt_length_of_mem_chain hold⟩
            exact .inr ⟨by omega, hold'⟩
  intro j entry hmem
  rcases hturns count (Nat.le_refl _) j entry hmem with hplace | ⟨hle, hold⟩
  · exact hplace
  · rw [hempty j hle] at hold
    exact absurd hold List.not_mem_nil

/-! ### Resizing -/

/-- Gives the vector another length: adds chains, rehashes the ones there were, and cuts it off. -/
def resize (place : Entry → ℕ) (buckets : List (List Entry)) (size : ℕ) : List (List Entry) :=
  (rehash place (buckets ++ List.replicate (size - buckets.length) []) buckets.length).take size

variable {size : ℕ}

theorem length_resize : (resize place buckets size).length = size := by
  rw [resize, List.length_take, length_rehash, List.length_append, List.length_replicate]
  omega

theorem placed_rehash_append (count : ℕ) :
    Placed place (rehash place (buckets ++ List.replicate count []) buckets.length) := by
  refine placed_rehash fun i hle ↦ ?_
  rw [chain_append_replicate]
  exact chain_of_length_le hle

theorem placed_resize : Placed place (resize place buckets size) :=
  (placed_rehash_append _).take size

/-- All entries are still there, and none is there twice. -/
theorem perm_resize (hplace : ∀ entry, place entry < size) :
    (resize place buckets size).flatten.Perm buckets.flatten := by
  have hlength : (buckets ++ List.replicate (size - buckets.length) []).length =
      max buckets.length size := by
    rw [List.length_append, List.length_replicate]
    omega
  rw [resize, flatten_take (placed_rehash_append _) hplace]
  refine (perm_rehash ?_ ?_).trans ?_
  · intro entry
    rw [hlength]
    exact Nat.lt_of_lt_of_le (hplace entry) (Nat.le_max_right ..)
  · rw [hlength]
    exact Nat.le_max_left ..
  · rw [flatten_append_replicate]

end Elua.Foundation.Buckets
