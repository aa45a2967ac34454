import Elua.Lua.StringTable

/-!
# Unique strings under emergency collections

`Kept` is the invariant behind `Interned`. A string that was looked up and is not in the table yet
belongs to a call that waits (`pending`): as long as no two calls wait with the same string and none
of these strings is in the table, the call can link its string without a second lookup. A table that
grows keeps its size until the reallocation is over, since `resizing` makes every nested resize
return. So a collection in the middle, which may sweep the table and run finalizers, breaks neither
(`Kept.singlestep`), the call that waited goes on as if nothing had happened (`Kept.resume`), and
`interned_of_orderly` says that the table is interned in every state of a run whose moves are all
`Orderly`.

`not_interned_emergency` is the run that meets the gap: the finalizer interns the very string whose
creation is waiting for the collection.
-/

set_option autoImplicit false
set_option relaxedAutoImplicit false

namespace Elua.Lua.Interning

open Foundation Buckets TransitionSystem

/-! ### The table -/

/-- A string without its marks. -/
def TableString.unmarked (ts : TableString) : List UInt8 × UInt32 := (ts.bytes, ts.hash)

/-- The bytes of all strings in the table. -/
def StringTable.names (strt : StringTable) : List (List UInt8) :=
  strt.hash.flatten.map TableString.bytes

/-- The table is interned, has as many chains as its size says, and its strings have their hashes. -/
structure Sound (strt : StringTable) : Prop where
  interned : Interned strt
  hashed : ∀ ts ∈ strt.hash.flatten, ts.hash = hashString ts.bytes
  length : strt.hash.length = strt.size
  size_pos : 0 < strt.size

theorem lmod_lt (h : UInt32) {size : ℕ} (hpos : 0 < size) : lmod h size < size := by
  have hle : lmod h size ≤ size - 1 := Nat.and_le_right
  omega

section Table

variable {strt : StringTable}

theorem Sound.lmod_lt_length (hsound : Sound strt) (h : UInt32) :
    lmod h strt.size < strt.hash.length := by
  rw [hsound.length]
  exact lmod_lt h hsound.size_pos

/-- A string that is in the table is in the chain where it is looked up. -/
theorem Sound.exists_mem_chain (hsound : Sound strt) {str : List UInt8} (hmem : str ∈ strt.names) :
    ∃ ts ∈ chain strt.hash (lmod (hashString str) strt.size), ts.bytes = str := by
  obtain ⟨ts, hts, rfl⟩ := List.mem_map.1 hmem
  exact ⟨ts, hsound.interned.placed.mem_chain hts, rfl⟩

theorem names_remark (marks : TableString → UInt8) : (strt.remark marks).names = strt.names := by
  rw [StringTable.names, StringTable.remark, ← List.map_flatten, List.map_map]
  rfl

theorem Sound.remark (hsound : Sound strt) (marks : TableString → UInt8) :
    Sound (strt.remark marks) := by
  constructor
  · constructor
    · have hnames : (strt.remark marks).names.Nodup := by
        rw [names_remark]
        exact hsound.interned.unique
      exact hnames
    · rw [StringTable.remark, ← List.map_flatten, List.length_map]
      exact hsound.interned.nuse
    · exact Placed.map hsound.interned.placed fun _ ↦ rfl
  · intro ts hts
    rw [StringTable.remark, ← List.map_flatten] at hts
    obtain ⟨before, hbefore, rfl⟩ := List.mem_map.1 hts
    exact hsound.hashed before hbefore
  · rw [StringTable.remark, List.length_map]
    exact hsound.length
  · exact hsound.size_pos

/-- The table with another chain, and with as many strings fewer as the chain has. -/
def StringTable.setChain (strt : StringTable) (i : ℕ) (after : List TableString) : StringTable :=
  { strt with
    hash := strt.hash.modify i fun _ ↦ after
    nuse := strt.nuse - ((chain strt.hash i).length - after.length) }

section Chains

variable {i : ℕ} {after : List TableString}

/-- What a chain that loses strings, and keeps the others but for their marks, does to the table. -/
theorem exists_perm_setChain (strt : StringTable)
    (hkept : (after.map TableString.unmarked).Sublist
      ((chain strt.hash i).map TableString.unmarked)) :
    ∃ others, strt.hash.flatten.Perm (chain strt.hash i ++ others) ∧
      (strt.setChain i after).hash.flatten.Perm (after ++ others) := by
  by_cases hi : i < strt.hash.length
  · obtain ⟨others, hbefore, hafter⟩ := perm_flatten_modify hi
    exact ⟨others, hbefore, hafter fun _ ↦ after⟩
  · have hchain : chain strt.hash i = [] := chain_of_length_le (Nat.le_of_not_lt hi)
    rw [hchain, List.map_nil, List.sublist_nil, List.map_eq_nil_iff] at hkept
    obtain rfl := hkept
    have hsame : (strt.setChain i []).hash = strt.hash := List.modify_eq_self (Nat.le_of_not_lt hi)
    rw [hchain, hsame]
    exact ⟨strt.hash.flatten, .refl _, .refl _⟩

/-- The strings of the new chain were in the old one, with these bytes and this hash. -/
theorem exists_mem_of_unmarked (hkept : (after.map TableString.unmarked).Sublist
    ((chain strt.hash i).map TableString.unmarked)) {ts : TableString} (hts : ts ∈ after) :
    ∃ before ∈ chain strt.hash i, before.bytes = ts.bytes ∧ before.hash = ts.hash := by
  obtain ⟨before, hbefore, hsame⟩ := List.mem_map.1 (hkept.subset (List.mem_map_of_mem hts))
  exact ⟨before, hbefore, congrArg Prod.fst hsame, congrArg Prod.snd hsame⟩

theorem names_sublist (hkept : (after.map TableString.unmarked).Sublist
    ((chain strt.hash i).map TableString.unmarked)) :
    (after.map TableString.bytes).Sublist ((chain strt.hash i).map TableString.bytes) := by
  have hbytes := hkept.map Prod.fst
  rwa [List.map_map, List.map_map] at hbytes

/-- No string comes in. -/
theorem mem_names_of_setChain (hkept : (after.map TableString.unmarked).Sublist
    ((chain strt.hash i).map TableString.unmarked)) {str : List UInt8}
    (hmem : str ∈ (strt.setChain i after).names) : str ∈ strt.names := by
  obtain ⟨others, hbefore, hafter⟩ := exists_perm_setChain strt hkept
  rw [StringTable.names, (hafter.map _).mem_iff, List.map_append] at hmem
  rw [StringTable.names, (hbefore.map _).mem_iff, List.map_append]
  exact ((names_sublist hkept).append_right _).subset hmem

theorem Sound.setChain (hsound : Sound strt) (hkept : (after.map TableString.unmarked).Sublist
    ((chain strt.hash i).map TableString.unmarked)) : Sound (strt.setChain i after) := by
  obtain ⟨others, hbefore, hafter⟩ := exists_perm_setChain strt hkept
  have hunique := hsound.interned.unique
  rw [(hbefore.map _).nodup_iff, List.map_append] at hunique
  constructor
  · constructor
    · rw [(hafter.map _).nodup_iff, List.map_append]
      exact hunique.sublist ((names_sublist hkept).append_right _)
    · have hle := (names_sublist hkept).length_le
      rw [List.length_map, List.length_map] at hle
      rw [hafter.length_eq, List.length_append]
      change strt.nuse - _ = _
      rw [hsound.interned.nuse, hbefore.length_eq, List.length_append]
      omega
    · refine hsound.interned.placed.modify fun ts hts ↦ ?_
      obtain ⟨before, hmem, hbytes, -⟩ := exists_mem_of_unmarked hkept hts
      rw [← hbytes]
      exact hsound.interned.placed i before hmem
  · intro ts hts
    rw [hafter.mem_iff, List.mem_append] at hts
    rcases hts with hnew | hother
    · obtain ⟨before, hmem, hbytes, hhash⟩ := exists_mem_of_unmarked hkept hnew
      rw [← hbytes, ← hhash]
      exact hsound.hashed before (mem_flatten_iff.2 ⟨i, hmem⟩)
    · exact hsound.hashed ts (hbefore.mem_iff.2 (List.mem_append_right _ hother))
  · exact (List.length_modify ..).trans hsound.length
  · exact hsound.size_pos

end Chains

theorem unmarked_sweepList (currentwhite : UInt8) (strings : List TableString) :
    ((sweepList currentwhite strings).map TableString.unmarked).Sublist
      (strings.map TableString.unmarked) := by
  rw [sweepList, List.map_map]
  exact List.filter_sublist.map _

theorem unmarked_lookup {currentwhite : UInt8} {str : List UInt8} {strings found : List TableString}
    (hfound : lookup currentwhite str strings = some found) :
    found.map TableString.unmarked = strings.map TableString.unmarked := by
  induction strings generalizing found with
  | nil => cases hfound
  | cons ts rest ih =>
    rw [lookup] at hfound
    split_ifs at hfound with hbytes hdead
    · obtain rfl := Option.some.inj hfound
      rfl
    · obtain rfl := Option.some.inj hfound
      rfl
    · obtain ⟨tail, htail, rfl⟩ := Option.map_eq_some_iff.1 hfound
      rw [List.map_cons, List.map_cons, ih htail]

theorem not_mem_of_lookup {currentwhite : UInt8} {str : List UInt8} {strings : List TableString}
    (hnone : lookup currentwhite str strings = none) : ∀ ts ∈ strings, ts.bytes ≠ str := by
  induction strings with
  | nil => exact fun ts hts ↦ absurd hts List.not_mem_nil
  | cons first rest ih =>
    rw [lookup] at hnone
    split_ifs at hnone with hbytes
    intro ts hts
    rcases List.mem_cons.1 hts with rfl | hrest
    · exact hbytes
    · exact ih (Option.map_eq_none_iff.1 hnone) ts hrest

/-- The table rehashed to another size. -/
def StringTable.resized (strt : StringTable) (newsize : ℕ) : StringTable :=
  { strt with hash := ((strt.extend newsize).rehash newsize).hash.take newsize, size := newsize }

theorem Sound.hash_resized (hsound : Sound strt) (newsize : ℕ) :
    (strt.resized newsize).hash = resize (fun ts ↦ lmod ts.hash newsize) strt.hash newsize := by
  rw [resize, hsound.length]
  rfl

theorem Sound.perm_resized (hsound : Sound strt) {newsize : ℕ} (hpos : 0 < newsize) :
    (strt.resized newsize).hash.flatten.Perm strt.hash.flatten := by
  rw [hsound.hash_resized]
  exact perm_resize fun ts ↦ lmod_lt ts.hash hpos

theorem Sound.mem_names_resized (hsound : Sound strt) {newsize : ℕ} (hpos : 0 < newsize)
    {str : List UInt8} : str ∈ (strt.resized newsize).names ↔ str ∈ strt.names :=
  ((hsound.perm_resized hpos).map _).mem_iff

theorem Sound.resized (hsound : Sound strt) {newsize : ℕ} (hpos : 0 < newsize) :
    Sound (strt.resized newsize) := by
  have hperm := hsound.perm_resized hpos
  have hhashed : ∀ ts ∈ (strt.resized newsize).hash.flatten, ts.hash = hashString ts.bytes :=
    fun ts hts ↦ hsound.hashed ts (hperm.mem_iff.1 hts)
  refine ⟨⟨(hperm.map _).nodup_iff.2 hsound.interned.unique, ?_, ?_⟩, hhashed, ?_, hpos⟩
  · rw [hperm.length_eq]
    exact hsound.interned.nuse
  · have hplaced : Placed (fun ts ↦ lmod ts.hash newsize) (strt.resized newsize).hash := by
      rw [hsound.hash_resized]
      exact placed_resize
    refine hplaced.congr fun ts hts ↦ ?_
    rw [hhashed ts hts]
    rfl
  · rw [hsound.hash_resized]
    exact length_resize

/-- A table that gets smaller is not extended. -/
theorem StringTable.extend_of_le {newsize : ℕ} (hle : newsize ≤ strt.size) :
    strt.extend newsize = strt := by
  rw [StringTable.extend, Nat.sub_eq_zero_of_le hle, List.replicate_zero, List.append_nil]

/-- The table with a new string at the head of its chain. -/
def StringTable.linked (strt : StringTable) (ts : TableString) : StringTable :=
  { strt with
    hash := strt.hash.modify (lmod ts.hash strt.size) (ts :: ·)
    nuse := strt.nuse + 1 }

theorem Sound.perm_linked (hsound : Sound strt) (ts : TableString) :
    (strt.linked ts).hash.flatten.Perm (ts :: strt.hash.flatten) := by
  obtain ⟨others, hbefore, hafter⟩ := perm_flatten_modify (hsound.lmod_lt_length ts.hash)
  exact (hafter _).trans (hbefore.symm.cons ts)

theorem Sound.mem_names_linked (hsound : Sound strt) {ts : TableString} {str : List UInt8} :
    str ∈ (strt.linked ts).names ↔ str = ts.bytes ∨ str ∈ strt.names := by
  rw [StringTable.names, ((hsound.perm_linked ts).map _).mem_iff, List.map_cons, List.mem_cons]
  rfl

theorem Sound.linked (hsound : Sound strt) {ts : TableString} (hhash : ts.hash = hashString ts.bytes)
    (hnew : ts.bytes ∉ strt.names) : Sound (strt.linked ts) := by
  have hperm := hsound.perm_linked ts
  refine ⟨⟨?_, ?_, ?_⟩, ?_, ?_, hsound.size_pos⟩
  · rw [(hperm.map _).nodup_iff, List.map_cons, List.nodup_cons]
    exact ⟨hnew, hsound.interned.unique⟩
  · rw [hperm.length_eq, List.length_cons, ← hsound.interned.nuse]
    rfl
  · refine hsound.interned.placed.modify fun other hother ↦ ?_
    rcases List.mem_cons.1 hother with rfl | hold
    · rw [hhash]
    · exact hsound.interned.placed _ other hold
  · intro other hother
    rw [hperm.mem_iff] at hother
    rcases List.mem_cons.1 hother with rfl | hold
    · exact hhash
    · exact hsound.hashed other hold
  · exact (List.length_modify ..).trans hsound.length

end Table

/-! ### The calls that wait -/

/-- A call that waits knows the hash of its string, and the table is not between two sizes. -/
def Frame.Proper : Frame → Prop
  | .growing _ str h _ | .creating str h _ => h = hashString str
  | .shrinking _ => False
  | _ => True

/-- The sizes that the table is going to have. -/
def growths (frames : List Frame) : List ℕ :=
  frames.filterMap fun
    | .growing newsize .. => some newsize
    | _ => none

/-- The invariant: the table is sound, the strings that wait to be linked are all different and not
in the table, and if a call waits to make the table greater, no other call does. -/
structure Kept (g : State) : Prop where
  sound : Sound g.strt
  sweeping : g.gcstate = .sweepstring → g.sweepstrgc < g.strt.size
  proper : ∀ frame ∈ g.frames, frame.Proper
  nodup : (pending g.frames).Nodup
  absent : ∀ str ∈ pending g.frames, str ∉ g.strt.names
  growing : growths g.frames = [] ∨ g.resizing = true ∧ growths g.frames = [g.strt.size * 2]

section Steps

variable {g after : State}

/-- The table changes its marks or loses strings. -/
theorem Kept.setTable (hkept : Kept g) {strt : StringTable} (hsound : Sound strt)
    (hsize : strt.size = g.strt.size) (hnames : ∀ str ∈ strt.names, str ∈ g.strt.names) :
    Kept { g with strt := strt } := by
  constructor
  · exact hsound
  · change _ → g.sweepstrgc < strt.size
    rw [hsize]
    exact hkept.sweeping
  · exact hkept.proper
  · exact hkept.nodup
  · exact fun str hpending hmem ↦ hkept.absent str hpending (hnames str hmem)
  · change _ ∨ _ ∧ _ = [strt.size * 2]
    rw [hsize]
    exact hkept.growing

theorem Kept.remark (hkept : Kept g) (marks : TableString → UInt8) :
    Kept { g with strt := g.strt.remark marks } := by
  refine hkept.setTable (hkept.sound.remark marks) rfl fun str hmem ↦ ?_
  rwa [names_remark] at hmem

/-- The collector goes on to a phase in which no strings are swept. -/
theorem Kept.setPhase (hkept : Kept g) {gcstate : GcState} (hphase : gcstate ≠ .sweepstring) :
    Kept { g with gcstate := gcstate } :=
  { hkept with sweeping := fun hstate ↦ absurd hstate hphase }

/-- The sweep of the strings begins. -/
theorem Kept.startSweep (hkept : Kept g) :
    Kept { g with sweepstrgc := 0, gcstate := .sweepstring } :=
  { hkept with sweeping := fun _ ↦ hkept.sound.size_pos }

/-- Calls end. -/
theorem Kept.drop (hkept : Kept g) (count : ℕ) : Kept { g with frames := g.frames.drop count } := by
  have hsublist := List.drop_sublist count g.frames
  constructor
  · exact hkept.sound
  · exact hkept.sweeping
  · exact fun frame hframe ↦ hkept.proper frame (hsublist.subset hframe)
  · exact hkept.nodup.sublist (hsublist.filterMap _)
  · exact fun str hmem ↦ hkept.absent str ((hsublist.filterMap _).subset hmem)
  · have hgrowths : (growths (g.frames.drop count)).Sublist (growths g.frames) :=
      hsublist.filterMap _
    rcases hkept.growing with hnone | ⟨hresizing, hone⟩
    · rw [hnone, List.sublist_nil] at hgrowths
      exact .inl hgrowths
    · rw [hone, List.sublist_singleton] at hgrowths
      exact hgrowths.imp id fun hsame ↦ ⟨hresizing, hsame⟩

/-- The last call ends. -/
theorem Kept.pop (hkept : Kept g) {frame : Frame} {rest : List Frame}
    (hframes : g.frames = frame :: rest) : Kept { g with frames := rest } := by
  have hdrop := hkept.drop 1
  rwa [hframes] at hdrop

/-- A call begins that has nothing to do with the table. -/
theorem Kept.push (hkept : Kept g) {frame : Frame} (hproper : frame.Proper)
    (hpending : pending (frame :: g.frames) = pending g.frames)
    (hgrowths : growths (frame :: g.frames) = growths g.frames) : Kept (g.push frame) := by
  constructor
  · exact hkept.sound
  · exact hkept.sweeping
  · exact List.forall_mem_cons.2 ⟨hproper, hkept.proper⟩
  · rw [State.push, hpending]
    exact hkept.nodup
  · rw [State.push, hpending]
    exact hkept.absent
  · rw [State.push, hgrowths]
    exact hkept.growing

/-- A string that is not in the table is going to be created. -/
theorem Kept.create (hkept : Kept g) {str : List UInt8} (readonly : Bool)
    (hpending : str ∉ pending g.frames) (hnew : str ∉ g.strt.names) :
    Kept (g.push (.creating str (hashString str) readonly)) :=
  { hkept with
    proper := List.forall_mem_cons.2 ⟨rfl, hkept.proper⟩
    nodup := List.nodup_cons.2 ⟨hpending, hkept.nodup⟩
    absent := List.forall_mem_cons.2 ⟨hnew, hkept.absent⟩ }

/-- Before this, the table is going to be made greater. -/
theorem Kept.createGrowing (hkept : Kept g) {str : List UInt8} (readonly : Bool)
    (hpending : str ∉ pending g.frames) (hnew : str ∉ g.strt.names) (hresizing : g.resizing = true)
    (hgrowths : growths g.frames = []) :
    Kept (g.push (.growing (g.strt.size * 2) str (hashString str) readonly)) :=
  { hkept with
    proper := List.forall_mem_cons.2 ⟨rfl, hkept.proper⟩
    nodup := List.nodup_cons.2 ⟨hpending, hkept.nodup⟩
    absent := List.forall_mem_cons.2 ⟨hnew, hkept.absent⟩
    growing := .inr ⟨hresizing, congrArg (g.strt.size * 2 :: ·) hgrowths⟩ }

/-! ### Sweeping and resizing -/

theorem Kept.sweepstrstep (hkept : Kept g) : Kept (sweepstrstep g) := by
  have hsublist := unmarked_sweepList g.currentwhite (chain g.strt.hash g.sweepstrgc)
  have hswept := hkept.setTable (hkept.sound.setChain hsublist) rfl fun _ ↦
    mem_names_of_setChain hsublist
  refine { hswept with sweeping := fun hstate ↦ ?_ }
  change (if g.strt.size ≤ g.sweepstrgc + 1 then GcState.sweep else g.gcstate) = _ at hstate
  split_ifs at hstate with hend
  exact Nat.lt_of_not_le hend

/-- No call has begun or ended, the size of the table is the same, and no string has come in. -/
structure Swept (g after : State) : Prop where
  frames : after.frames = g.frames
  size : after.strt.size = g.strt.size
  names : ∀ str ∈ after.strt.names, str ∈ g.strt.names

theorem swept_sweepstrstep (g : State) : Swept g (sweepstrstep g) where
  frames := rfl
  size := rfl
  names := fun _ ↦ mem_names_of_setChain (unmarked_sweepList _ _)

/-- The start of a resize may sweep a chain. -/
theorem Kept.luaCSweepstrgc (hkept : Kept g) :
    Kept (luaCSweepstrgc g).2 ∧ Swept g (luaCSweepstrgc g).2 := by
  rw [Interning.luaCSweepstrgc]
  split_ifs
  · exact ⟨hkept.sweepstrstep, swept_sweepstrstep g⟩
  · exact ⟨hkept, rfl, rfl, fun _ ↦ id⟩

/-- A resize starts only when no other one is going on. -/
theorem Kept.startResize (hkept : Kept g) (newsize : ℕ) :
    Kept (startResize newsize g).2 ∧ Swept g (startResize newsize g).2 ∧
      ((startResize newsize g).1 = true →
        (startResize newsize g).2.resizing = true ∧ growths g.frames = []) := by
  obtain ⟨hstepped, hswept⟩ := hkept.luaCSweepstrgc
  rw [Interning.startResize]
  generalize Interning.luaCSweepstrgc g = stepped at hstepped hswept
  dsimp only
  split_ifs with hreturns
  · exact ⟨hstepped, hswept, False.elim⟩
  · have hnone : growths stepped.2.frames = [] := by
      rcases hstepped.growing with hnone | ⟨hresizing, -⟩
      · exact hnone
      · exact absurd (.inr (.inr hresizing)) hreturns
    refine ⟨{ hstepped with growing := .inl hnone }, ⟨hswept.frames, hswept.size, hswept.names⟩,
      fun _ ↦ ⟨rfl, ?_⟩⟩
    rw [← hswept.frames]
    exact hnone

/-- The table gets another size when no call waits to make it greater. -/
theorem Kept.resized (hkept : Kept g) {newsize : ℕ} (hpos : 0 < newsize)
    (hgrowths : growths g.frames = [])
    (hsweeping : g.gcstate = .sweepstring → g.sweepstrgc < newsize) :
    Kept { g with strt := g.strt.resized newsize, resizing := false } := by
  constructor
  · exact hkept.sound.resized hpos
  · exact hsweeping
  · exact hkept.proper
  · exact hkept.nodup
  · exact fun str hmem hnames ↦
      hkept.absent str hmem ((hkept.sound.mem_names_resized hpos).1 hnames)
  · exact .inl hgrowths

theorem grow_eq (newsize : ℕ) (g : State) :
    grow newsize g = { g with strt := g.strt.resized newsize, resizing := false } := rfl

theorem finishResize_eq {newsize : ℕ} (hle : newsize ≤ g.strt.size) :
    finishResize newsize { g with strt := g.strt.rehash newsize, resizing := true } =
      { g with strt := g.strt.resized newsize, resizing := false } := by
  rw [finishResize, StringTable.resized, StringTable.extend_of_le hle]
  rfl

/-! ### Interning -/

/-- A string that nobody else creates and that is not in the table is going to be created. -/
theorem Kept.newlstr (hkept : Kept g) {str : List UInt8} {readonly : Bool}
    (hpending : str ∉ pending g.frames) (hnew : str ∉ g.strt.names)
    (hstep : newlstr str (hashString str) readonly g = some after) : Kept after := by
  rw [Interning.newlstr] at hstep
  obtain ⟨hstarted, hswept, hresizes⟩ := hkept.startResize (g.strt.size * 2)
  generalize Interning.startResize (g.strt.size * 2) g = result at hstarted hswept hresizes hstep
  obtain ⟨resizes, started⟩ := result
  dsimp only at hstarted hswept hresizes hstep
  split_ifs at hstep
  · obtain rfl := Option.some.inj hstep
    rw [← hswept.frames] at hpending hresizes
    obtain ⟨hresizing, hgrowths⟩ := hresizes ‹_›
    rw [← hswept.size]
    exact hstarted.createGrowing readonly hpending (fun hmem ↦ hnew (hswept.names str hmem))
      hresizing hgrowths
  · obtain rfl := Option.some.inj hstep
    rw [← hswept.frames] at hpending
    exact hstarted.create readonly hpending fun hmem ↦ hnew (hswept.names str hmem)
  · obtain rfl := Option.some.inj hstep
    exact hkept.create readonly hpending hnew

/-- A string is looked up, and created if it is not there. -/
theorem Kept.luaSNewlstrHelper (hkept : Kept g) {str : List UInt8} {readonly : Bool}
    (hpending : str ∉ pending g.frames)
    (hstep : luaSNewlstrHelper str readonly g = some after) : Kept after := by
  rw [Interning.luaSNewlstrHelper] at hstep
  rcases hlookup : lookup g.currentwhite str
    (chain g.strt.hash (lmod (hashString str) g.strt.size)) with - | found
  · have hnew : str ∉ g.strt.names := by
      intro hmem
      obtain ⟨ts, hts, hbytes⟩ := hkept.sound.exists_mem_chain hmem
      exact not_mem_of_lookup hlookup ts hts hbytes
    simp only [hlookup] at hstep
    exact hkept.newlstr hpending hnew hstep
  · simp only [hlookup, Option.some.injEq] at hstep
    subst hstep
    have hsame := unmarked_lookup hlookup
    have hsublist : (found.map TableString.unmarked).Sublist
        ((chain g.strt.hash (lmod (hashString str) g.strt.size)).map TableString.unmarked) :=
      hsame ▸ List.Sublist.refl _
    have hlength := congrArg List.length hsame
    rw [List.length_map, List.length_map] at hlength
    have hkeeps := hkept.setTable (hkept.sound.setChain hsublist) rfl fun _ ↦
      mem_names_of_setChain hsublist
    rw [StringTable.setChain, hlength, Nat.sub_self] at hkeeps
    exact hkeeps

theorem Kept.link (hkept : Kept g) {str : List UInt8} (readonly : Bool)
    (hpending : str ∉ pending g.frames) (hnew : str ∉ g.strt.names) :
    Kept (link str (hashString str) readonly g) := by
  constructor
  · exact hkept.sound.linked rfl hnew
  · exact hkept.sweeping
  · exact hkept.proper
  · exact hkept.nodup
  · intro other hother hmem
    rcases hkept.sound.mem_names_linked.1 hmem with rfl | hold
    · exact hpending hother
    · exact hkept.absent other hother hold
  · exact hkept.growing

/-- The string of the last call is not in the table, and no other call waits with it. -/
theorem Kept.awaited (hkept : Kept g) {str : List UInt8} {rest : List Frame}
    (hpending : pending g.frames = str :: pending rest) :
    str ∉ pending rest ∧ str ∉ g.strt.names := by
  have hnodup := hkept.nodup
  have habsent := hkept.absent
  rw [hpending] at hnodup habsent
  exact ⟨(List.nodup_cons.1 hnodup).1, habsent str List.mem_cons_self⟩

/-- The call that waits for an allocation goes on. -/
theorem Kept.resume (hkept : Kept g) (hstep : resume g g.frames = some after) : Kept after := by
  rcases hframes : g.frames with - | ⟨frame, rest⟩
  · rw [hframes] at hstep
    cases hstep
  have hpopped := hkept.pop hframes
  have hproper := hkept.proper
  rw [hframes, List.forall_mem_cons] at hproper
  rw [hframes] at hstep
  cases frame with
  | allocating =>
    obtain rfl := Option.some.inj hstep
    exact hpopped
  | growing newsize str h readonly =>
    obtain rfl := Option.some.inj hstep
    obtain rfl : h = hashString str := hproper.1
    have hwaits : pending g.frames = str :: pending rest := congrArg pending hframes
    obtain ⟨hpending, hnew⟩ := hkept.awaited hwaits
    have hgrowing := hkept.growing
    rw [hframes] at hgrowing
    obtain hnone | ⟨-, hone⟩ := hgrowing
    · cases hnone
    · obtain ⟨rfl, hrest⟩ := List.cons.inj hone
      have hpos : 0 < g.strt.size * 2 := Nat.mul_pos hkept.sound.size_pos Nat.two_pos
      have hsweeping : g.gcstate = .sweepstring → g.sweepstrgc < g.strt.size * 2 := by
        intro hstate
        have hlt := hkept.sweeping hstate
        omega
      have hgrown := hpopped.resized hpos hrest hsweeping
      rw [grow_eq]
      refine hgrown.create readonly hpending fun hmem ↦ hnew ?_
      exact (hkept.sound.mem_names_resized hpos).1 hmem
  | creating str h readonly =>
    obtain rfl := Option.some.inj hstep
    obtain rfl : h = hashString str := hproper.1
    have hwaits : pending g.frames = str :: pending rest := congrArg pending hframes
    obtain ⟨hpending, hnew⟩ := hkept.awaited hwaits
    exact hpopped.link readonly hpending hnew
  | shrinking newsize => exact hproper.1.elim
  | marking =>
    obtain rfl := Option.some.inj hstep
    exact { hpopped.startSweep with }
  | sizing =>
    obtain rfl := Option.some.inj hstep
    exact hpopped.setPhase fun hphase ↦ GcState.noConfusion hphase
  | collecting marked => cases hstep
  | stepping => cases hstep
  | finalizing => cases hstep

/-! ### Collections -/

theorem startResize_of_phase (hphase : g.gcstate ≠ .sweepstring) (newsize : ℕ) :
    startResize newsize g =
      if newsize = g.strt.size ∨ g.resizing = true then (false, g)
      else (true, { g with resizing := true }) := by
  rw [startResize, luaCSweepstrgc, if_neg hphase]
  simp only [Bool.false_eq_true, false_or]

theorem Kept.endSweep (hkept : Kept g) (found : Found) : Kept (endSweep found g) := by
  rw [Interning.endSweep]
  split_ifs
  · exact hkept.setPhase fun hphase ↦ GcState.noConfusion hphase
  · exact hkept.push trivial rfl rfl

/-- The table gets smaller, if its reallocation returns at once. -/
theorem Kept.checkSizes (hkept : Kept g) (hphase : g.gcstate = .sweep) {found : Found}
    (hreturns : g.strt.tooBig = true → g.resizing = false → found.returns = true) :
    Kept (checkSizes found g) := by
  have hother : g.gcstate ≠ .sweepstring := fun hstate ↦
    GcState.noConfusion (hphase.symm.trans hstate)
  rw [Interning.checkSizes]
  by_cases hbig : g.strt.tooBig = true
  · rw [if_pos hbig]
    dsimp only
    rw [startResize_of_phase hother]
    by_cases hrefused : g.strt.size / 2 = g.strt.size ∨ g.resizing = true
    · rw [if_pos hrefused]
      exact hkept.endSweep found
    · obtain ⟨-, hresizing⟩ := not_or.1 hrefused
      have hsize : 32 * 2 < g.strt.size := by
        rw [StringTable.tooBig, Bool.and_eq_true, decide_eq_true_iff, decide_eq_true_iff] at hbig
        exact hbig.2
      have hgrowths : growths g.frames = [] :=
        hkept.growing.resolve_right fun hgrowing ↦ hresizing hgrowing.1
      have hpos : 0 < g.strt.size / 2 := by omega
      have hshrunk := hkept.resized hpos hgrowths fun hstate ↦ absurd hstate hother
      rw [if_neg hrefused, if_pos rfl, if_pos (hreturns hbig (Bool.eq_false_iff.2 hresizing))]
      rw [finishResize_eq (Nat.div_le_self g.strt.size 2)]
      exact hshrunk.endSweep found
  · rw [if_neg hbig]
    exact hkept.endSweep found

theorem Kept.propagate (hkept : Kept g) (found : Found) : Kept (propagate found g) := by
  rw [Interning.propagate]
  split_ifs
  · exact hkept
  · exact hkept.push trivial rfl rfl
  · exact { hkept.startSweep with }
  · exact hkept.push trivial rfl rfl

/-- One step of a collection. -/
theorem Kept.singlestep (hkept : Kept g) {found : Found}
    (hreturns : g.gcstate = .sweep → found.more = false → g.strt.tooBig = true →
      g.resizing = false → found.returns = true) : Kept (singlestep found g) := by
  rw [Interning.singlestep]
  rcases hphase : g.gcstate with - | - | - | - | -
  · exact (hkept.remark found.marks).setPhase fun hphase ↦ GcState.noConfusion hphase
  · have hnext := (hkept.remark found.marks).propagate found
    rw [hphase] at hnext
    exact hnext
  · exact hkept.sweepstrstep
  · dsimp only
    split_ifs with hmore
    · exact hkept
    · exact hkept.checkSizes hphase (hreturns hphase (Bool.eq_false_iff.2 hmore))
  · dsimp only
    split_ifs
    · exact hkept.push trivial rfl rfl
    · exact hkept
    · exact hkept.setPhase fun hphase ↦ GcState.noConfusion hphase

/-- A turn of `luaC_fullgc`. -/
theorem Kept.fullTurn (hkept : Kept g) {found : Found} {marked : Bool} {rest : List Frame}
    (hframes : g.frames = .collecting marked :: rest)
    (hreturns : g.gcstate = .sweep → found.more = false → g.strt.tooBig = true →
      g.resizing = false → found.returns = true) : Kept (fullTurn found marked rest g) := by
  have hpopped := hkept.pop hframes
  rw [Interning.fullTurn]
  split_ifs
  · exact { hpopped with }
  · exact hkept.singlestep hreturns
  · have hmarked : Kept ({ g with strt := g.strt.remark found.marks, frames := rest }.push
        (.collecting true)) := (hpopped.remark found.marks).push trivial rfl rfl
    exact hmarked.setPhase fun hphase ↦ GcState.noConfusion hphase
  · exact hkept.singlestep hreturns

theorem Kept.luaCFullgc (hkept : Kept g) : Kept (luaCFullgc g) := by
  have hpushed : Kept (g.push (.collecting false)) := hkept.push trivial rfl rfl
  rw [Interning.luaCFullgc]
  split_ifs
  · exact hkept
  · exact { hpushed.startSweep with }
  · exact { hpushed with }

theorem Kept.luaCStep (hkept : Kept g) : Kept (luaCStep g) := by
  have hpushed : Kept (g.push .stepping) := hkept.push trivial rfl rfl
  rw [Interning.luaCStep]
  split_ifs
  · exact hkept
  · exact { hpushed with }

end Steps

/-! ### Runs -/

/-- A move that meets the condition keeps the invariant. -/
theorem Kept.move {g after : State} (hkept : Kept g) {event : Move} (horderly : Orderly g event)
    (hstep : move g event = some after) : Kept after := by
  cases event with
  | newlstr str readonly =>
    simp only [Interning.move] at hstep
    split_ifs at hstep
    exact hkept.luaSNewlstrHelper horderly hstep
  | allocate =>
    simp only [Interning.move] at hstep
    split_ifs at hstep
    obtain rfl := Option.some.inj hstep
    exact hkept.push trivial rfl rfl
  | setBlock blocked =>
    simp only [Interning.move] at hstep
    split_ifs at hstep
    obtain rfl := Option.some.inj hstep
    exact { hkept with }
  | remark marks =>
    obtain rfl := Option.some.inj hstep
    exact hkept.remark marks
  | fullgc =>
    simp only [Interning.move] at hstep
    split_ifs at hstep
    obtain rfl := Option.some.inj hstep
    exact hkept.luaCFullgc
  | step =>
    simp only [Interning.move] at hstep
    split_ifs at hstep
    obtain rfl := Option.some.inj hstep
    exact hkept.luaCStep
  | turn found =>
    simp only [Interning.move] at hstep
    split at hstep
    · next marked rest hframes =>
      obtain rfl := Option.some.inj hstep
      exact hkept.fullTurn hframes horderly
    · obtain rfl := Option.some.inj hstep
      exact hkept.singlestep horderly
    · cases hstep
  | stop =>
    simp only [Interning.move] at hstep
    split at hstep
    · next rest hframes =>
      obtain rfl := Option.some.inj hstep
      exact { hkept.pop hframes with }
    · cases hstep
  | finished =>
    simp only [Interning.move] at hstep
    split at hstep
    · next rest hframes =>
      obtain rfl := Option.some.inj hstep
      exact hkept.pop hframes
    · cases hstep
  | allocated => exact hkept.resume hstep
  | throw count =>
    simp only [Interning.move] at hstep
    split_ifs at hstep
    obtain rfl := Option.some.inj hstep
    exact { hkept.drop count with }

theorem kept_opened : Kept opened := by
  constructor
  · refine ⟨⟨List.nodup_nil, rfl, ?_⟩, fun ts hts ↦ absurd hts List.not_mem_nil, rfl, ?_⟩
    · intro i ts hts
      exact absurd (mem_flatten_iff.2 ⟨i, hts⟩) List.not_mem_nil
    · exact Nat.zero_lt_succ 31
  · exact fun hstate ↦ GcState.noConfusion hstate
  · exact fun frame hframe ↦ absurd hframe List.not_mem_nil
  · exact List.nodup_nil
  · exact fun str hmem ↦ absurd hmem List.not_mem_nil
  · exact .inl rfl

theorem kept_of_orderly {g : State} (hreach : strings.ReachableUnder Orderly g) : Kept g := by
  refine hreach.invariant Kept ?_ ?_
  · rintro g rfl
    exact kept_opened
  · intro g event after hkept horderly hstep
    exact hkept.move horderly hstep

/-- The strings in the table stay unique, counted and in their chains, as long as no string is
interned while the same string is being created and no table that gets smaller is reallocated with a
collection or a failure. -/
theorem interned_of_orderly {g : State} (hreach : strings.ReachableUnder Orderly g) :
    Interned g.strt :=
  (kept_of_orderly hreach).sound.interned

/-- A turn of a collection that marks nothing anew and whose reallocations return at once. -/
def quietTurn (more hasTm : Bool) : Move :=
  .turn
    { more := more, hasTm := hasTm, marks := TableString.marked, returns := true
      othersReturn := true }

/-- A string is created, and its allocation makes a full collection: the sweeps of the strings and
the objects, the new marking, the sweeps again, and a finalizer that interns a string. -/
def emergency (created finalized : List UInt8) : List Move :=
  [.newlstr created false, .fullgc] ++ List.replicate 68 (quietTurn false false) ++
    [quietTurn true true, .newlstr finalized false, .allocated, .finished, quietTurn false false,
      quietTurn false false, .allocated]

/-- The finalizer interns another string. -/
theorem interned_of_orderly_emergency :
    ∃ g, strings.ReachableUnder Orderly g ∧ g.frames = [] ∧ g.strt.names = [[97], [98]] ∧
      Interned g.strt := by
  have hnames : ((runEvents move opened (emergency [97] [98])).map fun g ↦
      (g.frames.length, g.strt.names)) = some (0, [[97], [98]]) := by
    decide +kernel
  obtain ⟨g, hrun, hg⟩ := Option.map_eq_some_iff.1 hnames
  obtain ⟨hframes, hnames⟩ := Prod.mk.inj hg
  have hreach : strings.ReachableUnder Orderly g :=
    reachableUnder_of_permitsEvents _ (.start rfl) (by decide +kernel) hrun
  exact ⟨g, hreach, List.length_eq_zero_iff.1 hframes, hnames, interned_of_orderly hreach⟩

/-- The finalizer interns the string whose creation waits for the collection: it is not in the table
yet, so it is created twice. -/
theorem not_interned_emergency : ∃ g, strings.Reachable g ∧ ¬ Interned g.strt := by
  have hnames : ((runEvents move opened (emergency [97] [97])).map fun g ↦ g.strt.names) =
      some [[97], [97]] := by
    decide +kernel
  obtain ⟨g, hrun, hnames⟩ := Option.map_eq_some_iff.1 hnames
  have hreach : strings.Reachable g :=
    reachableUnder_of_runEvents (fun _ _ _ ↦ id) _ (.start rfl) (fun _ _ _ ↦ trivial) hrun
  refine ⟨g, hreach, fun hinterned ↦ ?_⟩
  have hunique : g.strt.names.Nodup := hinterned.unique
  rw [hnames] at hunique
  exact absurd hunique (by decide)

end Elua.Lua.Interning
