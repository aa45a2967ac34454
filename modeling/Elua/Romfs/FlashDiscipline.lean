import Elua.Romfs.LogRefinement

/-!
# Writing to flash once

`RespectsFlash` is what a WOFS owes to its flash: every write stays below the end of the flash and
meets erased bytes only, and the bytes from the end of the last entry on are erased, four at least,
so that no computation of free space wraps. It holds in every state of every run of intended calls
in which no file is replaced while another one is named by the single byte 1
(`respectsFlash_of_orderlyUse`).

That name is the one that an open looks up to find the end of the last file. When a file has it, a
replacing open never sets the variable `firstfree` and writes to a stray address
(`reserved_name_overwrites_an_entry`).
-/

set_option autoImplicit false
set_option relaxedAutoImplicit false

namespace Elua.Romfs

open Foundation TransitionSystem

variable {Instance : Type*} [DecidableEq Instance]

/-- An instance has kept to its flash and still has room for its end marker. -/
structure RespectsFlash (world : World Instance) (inst : Instance) : Prop where
  /-- Every write stays inside the flash and meets erased bytes only. In particular a delete word is
  rewritten at most once, from erased. -/
  writes_safe : ∀ write ∈ (world.fs inst).writes,
    write.addr + write.bytes.length ≤ (world.fs inst).maxSize ∧
      ∀ byte ∈ write.before, byte = 0xFF
  /-- Behind the last entry four bytes or more are left, all erased. The entry of a file being
  written ends where its descriptor stands. -/
  end_marker : ∃ finish, finish + romfsAlign ≤ (world.fs inst).maxSize ∧
    (world.fs inst).image.length = (world.fs inst).maxSize ∧
    (∀ byte ∈ (world.fs inst).image.drop finish, byte = 0xFF) ∧
    ((world.fs inst).writing = false →
      ∃ entries, EntriesFrom (world.fs inst) 0 entries finish) ∧
    ∀ fd, world.handles fd = some ⟨inst, true⟩ →
      (world.table.fds fd).baseaddr + (world.table.fds fd).size = finish
  /-- The free space that an open computes does not wrap. -/
  free_space : ∀ fuel path flags junk lookup probe,
    OrderlyUse world (.open inst path flags junk) →
    goesOnToCreate fuel path flags world.table (world.fs inst) = true →
    romfsOpenFile fuel path (world.fs inst) = some lookup →
    romfsOpenFile fuel invalidName (invalidateOld (world.fs inst) lookup) = some probe →
      probe.last (lookup.last junk) ≤ (world.fs inst).maxSize

omit [DecidableEq Instance] in
/-- An orderly state respects its flash. -/
theorem Orderly.respectsFlash {world : World Instance} (horderly : Orderly world) {inst : Instance}
    (hwo : (world.fs inst).wo = true) : RespectsFlash world inst := by
  have hholds := horderly.holds inst hwo
  refine ⟨fun write hwrite ↦ ?_, ⟨(world.log inst).bytes.length, hholds.room,
    hholds.length_image, fun byte hbyte ↦ ?_, fun hwriting ↦ ?_, fun fd hfd ↦ ?_⟩, ?_⟩
  · obtain ⟨hinside, herased⟩ := hholds.writes_safe write hwrite
    refine ⟨hinside, fun byte hbyte ↦ ?_⟩
    rw [herased] at hbyte
    exact List.eq_of_mem_replicate hbyte
  · rw [hholds.image_eq, List.drop_left] at hbyte
    exact List.eq_of_mem_replicate hbyte
  · have hpending : (world.log inst).pending = none := by
      have hsome := hholds.writing_eq
      rw [hwriting] at hsome
      exact Option.not_isSome_iff_eq_none.mp (hsome ▸ Bool.false_ne_true)
    rw [bytes_of_pending_none hpending]
    exact ⟨_, hholds.entriesFrom⟩
  · exact (horderly.writer fd inst hfd).2.length_bytes.symm
  · intro fuel path flags junk lookup probe huse hgoes hlookup hprobe
    obtain ⟨first, lflags, hfirst, hdecode⟩ := exists_decodeOpen_of_goesOnToCreate hgoes
    obtain ⟨-, hpending, -⟩ := horderly.idle
      (huse.creates_for_writing fuel inst path flags junk rfl hgoes) hdecode
    rw [hholds.firstfree hpending hlookup hprobe
      (huse.reserved_unused fuel inst path flags junk rfl hgoes) junk,
      ← bytes_of_pending_none hpending]
    exact Nat.le_of_add_right_le hholds.room

/-- In every run of intended calls that replaces no file while another one has the reserved name,
every WOFS respects its flash in every state. -/
theorem respectsFlash_of_orderlyUse (world : World Instance)
    (hreach : (fsSystem Instance).ReachableUnder
      (fun state event ↦ IntendedUse state event ∧ ReservedNameUnused state event) world)
    (inst : Instance) (hwo : (world.fs inst).wo = true) : RespectsFlash world inst :=
  (orderly_of_orderlyUse (hreach.mono fun _ _ huse ↦ ⟨huse.1, huse.2⟩)).respectsFlash hwo

/-- A flash of 64 bytes on which a file is created, written and closed. -/
theorem respectsFlash_of_one_file :
    ∃ world, runEvents (fsStep 3) (.blank 64) oneFile = some world ∧ RespectsFlash world () := by
  have hrun : (runEvents (fsStep 3) (.blank 64) oneFile).map (fun world ↦ (world.fs ()).wo) =
      some true := by rfl
  obtain ⟨world, hworld, hwo⟩ := Option.map_eq_some_iff.mp hrun
  exact ⟨world, hworld, respectsFlash_of_orderlyUse world
    ((reachableUnder_oneFile hworld).mono fun _ _ huse ↦ ⟨huse.toIntendedUse, huse.reserved_unused⟩)
    () hwo⟩

/-- Creating a file named by the byte 1 and a file `a`, then replacing `a`: the variable `firstfree`
still holds the value 0 it happened to have, and the new entry is written over the first one. -/
theorem reserved_name_overwrites_an_entry :
    ∃ world, (fsSystem Unit).ReachableUnder IntendedUse world ∧ (world.fs ()).wo = true ∧
      ¬RespectsFlash world () := by
  have hrun : (runEvents (fsStep 4) (.blank 32)
      [.open () invalidName ⟨true, false, false, true, false, false⟩ 0, .close 0,
        .open () ⟨[0x61], by decide⟩ ⟨true, false, false, true, false, false⟩ 0, .close 0,
        .open () ⟨[0x61], by decide⟩ ⟨false, false, true, true, false, false⟩ 0]).map
      (fun world ↦ ((world.fs ()).wo, (world.fs ()).writes.getLast?)) =
        some (true, some ⟨0, [0x61, 0], [1, 0]⟩) := by rfl
  obtain ⟨world, hworld, hwrites⟩ := Option.map_eq_some_iff.mp hrun
  obtain ⟨hwo, hlast⟩ := Prod.mk.inj hwrites
  refine ⟨world, reachableUnder_of_blank hworld (by decide) (by decide) (by decide) ?_, hwo,
    fun hrespects ↦ ?_⟩
  · simp only [List.forall_mem_cons, List.not_mem_nil, false_imp_iff, implies_true, and_true]
    exact fun state ↦ ⟨.open rfl (by decide), .close, .open rfl (by decide), .close,
      .open rfl (by decide)⟩
  · have hsafe := hrespects.writes_safe _ (List.mem_of_getLast? hlast)
    exact absurd (hsafe.2 1 List.mem_cons_self) (by decide)

end Elua.Romfs
