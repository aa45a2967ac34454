import Elua.Romfs.ScanSoundness

/-!
# The sizes of the entries, and the writers of a run

The tracking of the writers says that every created file whose descriptor is closed has had its size
written. `EntriesSized` says the same of the image: it is a chain of entries whose size fields have
been written, and behind them is the end marker or the one entry of a descriptor that is still open.

`writingTracked_and_entriesSized` puts both together. An open with `O_CREAT` alone is what they
exclude: it marks the instance as being written, but the close of its read only descriptor neither
writes the size nor clears the mark (`read_only_create_leaves_the_mark`).
-/

set_option autoImplicit false
set_option relaxedAutoImplicit false

namespace Elua.Romfs

open Foundation TransitionSystem

variable {Instance : Type*}

/-- Every entry of the image has its size field written, except the one of the open descriptor that
created its file. -/
def EntriesSized (world : World Instance) (inst : Instance) : Prop :=
  ∃ entries finish, EntriesFrom (world.fs inst) 0 entries finish ∧
    (∀ entry ∈ entries, entry.header.size ≠ erasedWord) ∧
    (EndsAt (world.fs inst) finish ∨
      ∃ fd name, world.handles fd = some ⟨inst, true⟩ ∧
        EntryAt (world.fs inst) finish name ⟨false, erasedWord, (world.table.fds fd).baseaddr⟩)

/-- The contents of a complete file are not longer than the bytes of all. -/
theorem size_le_of_mem_scannedFiles {start : ℕ} {files : List File} {entry : ScannedEntry}
    (hentry : entry ∈ scannedFiles start files) : entry.header.size ≤ (filesBytes files).length := by
  induction files generalizing start with
  | nil => cases hentry
  | cons file files ih =>
    have hlength := length_fileBytes file
    rw [filesBytes_cons, List.length_append]
    obtain rfl | hentry := List.mem_cons.mp hentry
    · simp only [File.header]
      omega
    · have hrest := ih hentry
      omega

/-- In an orderly state the entries of the image have their sizes. -/
theorem Orderly.entriesSized {world : World Instance} (horderly : Orderly world) {inst : Instance}
    (hwo : (world.fs inst).wo = true) : EntriesSized world inst := by
  have hholds := horderly.holds inst hwo
  have hroom := hholds.room
  have hmaxLt := hholds.maxSize_lt
  refine ⟨_, _, hholds.entriesFrom, fun entry hentry ↦ ?_, ?_⟩
  · have hsize := size_le_of_mem_scannedFiles hentry
    rw [Log.bytes, List.length_append] at hroom
    unfold erasedWord
    unfold romfsAlign at hroom
    omega
  · cases hpending : (world.log inst).pending with
    | none => exact .inl (bytes_of_pending_none hpending ▸ hholds.endsAt)
    | some pending =>
      have hwriting := hholds.writing_eq
      rw [hpending, Option.isSome_some] at hwriting
      obtain ⟨fd, hfd⟩ := (horderly.tracked.writers.flag_iff inst).mp hwriting
      obtain ⟨-, name, data, hname, hbase, -⟩ := horderly.writer fd inst hfd
      refine .inr ⟨fd, name.bytes, hfd, ?_⟩
      rw [hbase]
      exact hholds.entryAt_pending hname

variable [DecidableEq Instance]

/-- In every run in which each open that goes on to create a file asks for write access, the writers
are tracked in every state. If the calls are orderly in the other respects too, every entry of a
WOFS image that belongs to no open descriptor has its size field written. -/
theorem writingTracked_and_entriesSized :
    (∀ world : World Instance, (fsSystem Instance).ReachableUnder CreatesForWriting world →
      WritingTracked world) ∧
    ∀ world : World Instance, (fsSystem Instance).ReachableUnder OrderlyUse world →
      ∀ inst, (world.fs inst).wo = true → EntriesSized world inst :=
  ⟨fun _ hreach ↦ (tracked_of_createsForWriting hreach).writingTracked,
    fun _ hreach _ hwo ↦ (orderly_of_orderlyUse hreach).entriesSized hwo⟩

/-- A file is created, written and closed. -/
theorem writingTracked_and_entriesSized_of_one_file :
    ∃ world, runEvents (fsStep 3) (.blank 64) oneFile = some world ∧ WritingTracked world ∧
      EntriesSized world () := by
  have hrun : (runEvents (fsStep 3) (.blank 64) oneFile).map (fun world ↦ (world.fs ()).wo) =
      some true := by rfl
  obtain ⟨world, hworld, hwo⟩ := Option.map_eq_some_iff.mp hrun
  have hreach := reachableUnder_oneFile hworld
  exact ⟨world, hworld,
    writingTracked_and_entriesSized.1 world (hreach.mono fun _ _ huse ↦ huse.creates_for_writing),
    writingTracked_and_entriesSized.2 world hreach () hwo⟩

/-- A file is created by an open that does not ask for write access, and closed. No descriptor is
open any more, but the instance is still marked as being written, and no size was ever written. -/
theorem read_only_create_leaves_the_mark :
    ∃ world, (fsSystem Unit).Reachable world ∧ (∀ fd, world.handles fd = none) ∧
      (world.fs ()).writing = true ∧ world.headers = [((), 12)] ∧
      ¬SizeWritten (world.fs ()) 12 ∧ ¬WritingTracked world := by
  have hrun : (runEvents (fsStep 3) (.blank 32)
      [.open () ⟨[0x61], by decide⟩ ⟨true, false, false, false, false, false⟩ 0, .close 0]).map
      (fun world ↦ ((world.fs ()).writing, world.headers, (world.fs ()).writes,
        (List.finRange totalMaxFds).map world.handles)) =
        some (true, [((), 12)], [⟨0, [0x61, 0], [0xFF, 0xFF]⟩],
          List.replicate totalMaxFds none) := by rfl
  obtain ⟨world, hworld, hstate⟩ := Option.map_eq_some_iff.mp hrun
  simp only [Prod.mk.injEq] at hstate
  obtain ⟨hwriting, hheaders, hwrites, hhandles⟩ := hstate
  have hclosed : ∀ fd, world.handles fd = none := fun fd ↦ by
    have hmem := List.mem_map_of_mem (f := world.handles) (List.mem_finRange fd)
    rw [hhandles] at hmem
    exact List.eq_of_mem_replicate hmem
  refine ⟨world, reachableUnder_of_blank hworld (by decide) (by decide) (by decide)
    (fun _ _ _ ↦ trivial), hclosed, hwriting, hheaders, ?_, fun htracked ↦ ?_⟩
  · rintro ⟨size, write, hwrite, -, hbytes⟩
    rw [hwrites, List.mem_singleton] at hwrite
    have hlength := congrArg List.length (hwrite ▸ hbytes)
    cases hlength
  · obtain ⟨fd, hfd⟩ := (htracked.flag_iff ()).mp hwriting
    rw [hclosed fd] at hfd
    cases hfd

end Elua.Romfs
