import Elua.Romfs.World
import Mathlib.Data.Finset.Card
import Mathlib.Data.Fintype.Basic

/-!
# Who is writing

`WritingTracked` says that the state of a run keeps track of its writers: an instance is marked as
being written exactly while a descriptor that created a file on it is open, there is at most one
such descriptor, every created file whose descriptor is closed has had its size written, and the
count of descriptors is right. `Tracked` is the invariant behind it, in two parts: the slots of the
table, and the writers. It survives every call as long as every open that goes on to create a file
asks for write access (`tracked_of_createsForWriting`). -/

set_option autoImplicit false
set_option relaxedAutoImplicit false

namespace Elua.Romfs

open Foundation TransitionSystem

variable {Instance : Type*}

/-- The slots of the table that hold a file. -/
def occupiedSlots (table : FdTable) : Finset (Fin totalMaxFds) :=
  Finset.univ.filter fun fd ↦ (table.fds fd).isEmpty = false

/-- A size has been written in front of the data at an address. -/
def SizeWritten (pfs : Fsdata) (baseaddr : ℕ) : Prop :=
  ∃ size, ∃ write ∈ pfs.writes,
    write.addr = sub32 baseaddr romfsSizeLen ∧ write.bytes = leBytes32 size

/-- The writers of a run are tracked. -/
structure WritersTracked (table : FdTable) (fs : Instance → Fsdata)
    (handles : Fin totalMaxFds → Option (Handle Instance)) (headers : List (Instance × ℕ)) :
    Prop where
  flag_iff : ∀ inst, (fs inst).writing = true ↔ ∃ fd, handles fd = some ⟨inst, true⟩
  one_writer : ∀ inst first second, handles first = some ⟨inst, true⟩ →
    handles second = some ⟨inst, true⟩ → first = second
  sizes_written : ∀ inst baseaddr, (inst, baseaddr) ∈ headers →
    (∃ fd, handles fd = some ⟨inst, true⟩ ∧ (table.fds fd).baseaddr = baseaddr) ∨
      SizeWritten (fs inst) baseaddr

/-- The writers of a run are tracked, and the count of descriptors is right. -/
structure WritingTracked (world : World Instance) : Prop
    extends WritersTracked world.table world.fs world.handles world.headers where
  numFd_eq : world.table.numFd = (occupiedSlots world.table).card

/-- Every open that goes on to create a file asks for write access. -/
def CreatesForWriting (world : World Instance) (event : FsEvent Instance) : Prop :=
  ∀ fuel inst path flags junk, event = .open inst path flags junk →
    goesOnToCreate fuel path flags world.table (world.fs inst) = true →
      (decodeAccess flags).writable = true

/-! ### The slots of the table -/

theorem mem_occupiedSlots {table : FdTable} {fd : Fin totalMaxFds} :
    fd ∈ occupiedSlots table ↔ (table.fds fd).isEmpty = false := by
  rw [occupiedSlots, Finset.mem_filter]
  exact and_iff_right (Finset.mem_univ fd)

/-- A descriptor with an aligned address is not taken for an empty slot. -/
theorem isEmpty_of_aligned {file : Fd} (haligned : file.baseaddr % romfsAlign = 0) :
    file.isEmpty = false := by
  have hne : file.baseaddr ≠ erasedWord := fun heq ↦ by
    rw [heq] at haligned
    exact absurd haligned (by decide)
  simp only [Fd.isEmpty, beq_eq_false_iff_ne.mpr hne, Bool.false_and]

/-- Replacing one file by another in a slot keeps the slots occupied. -/
theorem occupiedSlots_set {table : FdTable} {fd : Fin totalMaxFds} {file : Fd}
    (hold : (table.fds fd).isEmpty = false) (hnew : file.isEmpty = false) :
    occupiedSlots (table.set fd file) = occupiedSlots table := by
  ext other
  rw [mem_occupiedSlots, mem_occupiedSlots]
  by_cases hother : other = fd
  · subst hother
    simp only [FdTable.set, Function.update_self, hold, hnew]
  · simp only [FdTable.set, Function.update_of_ne hother]

/-- Installing a file in an empty slot occupies it. -/
theorem card_occupiedSlots_install {table : FdTable} {fd : Fin totalMaxFds} {file : Fd}
    (hold : (table.fds fd).isEmpty = true) (hnew : file.isEmpty = false) :
    (occupiedSlots (table.install fd file)).card = (occupiedSlots table).card + 1 := by
  have hinsert : occupiedSlots (table.install fd file) = insert fd (occupiedSlots table) := by
    ext other
    rw [Finset.mem_insert, mem_occupiedSlots, mem_occupiedSlots]
    by_cases hother : other = fd
    · subst hother
      simp only [FdTable.install, FdTable.set, Function.update_self, hnew, true_or]
    · simp only [FdTable.install, FdTable.set, Function.update_of_ne hother, hother, false_or]
  rw [hinsert, Finset.card_insert_of_notMem]
  rw [mem_occupiedSlots, hold]
  exact Bool.noConfusion

/-- Emptying an occupied slot frees it. -/
theorem card_occupiedSlots_close {table : FdTable} {fd : Fin totalMaxFds}
    (hold : (table.fds fd).isEmpty = false) :
    (occupiedSlots (romfsCloseFd table fd)).card + 1 = (occupiedSlots table).card := by
  have herase : occupiedSlots (romfsCloseFd table fd) = (occupiedSlots table).erase fd := by
    ext other
    rw [Finset.mem_erase, mem_occupiedSlots, mem_occupiedSlots]
    by_cases hother : other = fd
    · subst hother
      simp [romfsCloseFd, FdTable.set, closedFd, Fd.isEmpty]
    · simp only [romfsCloseFd, FdTable.set, Function.update_of_ne hother, ne_eq, hother,
        not_false_eq_true, true_and]
  rw [herase]
  exact Finset.card_erase_add_one (mem_occupiedSlots.mpr hold)

/-- The slot that an open takes is empty. -/
theorem isEmpty_of_romfsFindEmptyFd {table : FdTable} {fd : Fin totalMaxFds}
    (hslot : romfsFindEmptyFd table = some fd) : (table.fds fd).isEmpty = true := by
  simpa only using List.find?_some hslot

/-- The slots of the table and the open descriptors agree: the others are empty, and an open one has
an aligned address and can be written to exactly if it created its file. -/
structure SlotsTracked (table : FdTable) (handles : Fin totalMaxFds → Option (Handle Instance)) :
    Prop where
  numFd_eq : table.numFd = (occupiedSlots table).card
  free : ∀ fd, handles fd = none → table.fds fd = closedFd
  aligned : ∀ fd handle, handles fd = some handle → (table.fds fd).baseaddr % romfsAlign = 0
  writable : ∀ fd handle, handles fd = some handle →
    (table.fds fd).flags.writable = handle.created

section Slots

variable {table : FdTable} {handles : Fin totalMaxFds → Option (Handle Instance)}

/-- No open descriptor is in an empty slot. -/
theorem SlotsTracked.handles_eq_none (hslots : SlotsTracked table handles) {fd : Fin totalMaxFds}
    (hempty : (table.fds fd).isEmpty = true) : handles fd = none := by
  cases hhandle : handles fd with
  | none => rfl
  | some handle =>
    rw [isEmpty_of_aligned (hslots.aligned fd handle hhandle)] at hempty
    cases hempty

/-- Moving the file pointer or changing the size of an open file. -/
theorem SlotsTracked.set (hslots : SlotsTracked table handles) {fd : Fin totalMaxFds}
    {handle : Handle Instance} (hhandle : handles fd = some handle) {file : Fd}
    (hbase : file.baseaddr = (table.fds fd).baseaddr)
    (hflags : file.flags = (table.fds fd).flags) : SlotsTracked (table.set fd file) handles := by
  have haligned := hslots.aligned fd handle hhandle
  refine ⟨?_, fun other hother ↦ ?_, fun other otherHandle hother ↦ ?_,
    fun other otherHandle hother ↦ ?_⟩
  · rw [occupiedSlots_set (isEmpty_of_aligned haligned) (isEmpty_of_aligned (hbase ▸ haligned))]
    exact hslots.numFd_eq
  · have hne : other ≠ fd := fun heq ↦ by simp [heq, hhandle] at hother
    simp only [FdTable.set, Function.update_of_ne hne, hslots.free other hother]
  · by_cases hne : other = fd
    · subst hne
      simpa only [FdTable.set, Function.update_self, hbase] using haligned
    · simpa only [FdTable.set, Function.update_of_ne hne] using
        hslots.aligned other otherHandle hother
  · by_cases hne : other = fd
    · subst hne
      simpa only [FdTable.set, Function.update_self, hflags] using
        hslots.writable other otherHandle hother
    · simpa only [FdTable.set, Function.update_of_ne hne] using
        hslots.writable other otherHandle hother

/-- Installing a file in an empty slot. -/
theorem SlotsTracked.install (hslots : SlotsTracked table handles) {fd : Fin totalMaxFds}
    (hempty : (table.fds fd).isEmpty = true) {file : Fd} {handle : Handle Instance}
    (haligned : file.baseaddr % romfsAlign = 0) (hwritable : file.flags.writable = handle.created) :
    SlotsTracked (table.install fd file) (Function.update handles fd (some handle)) := by
  refine ⟨?_, fun other hother ↦ ?_, fun other otherHandle hother ↦ ?_,
    fun other otherHandle hother ↦ ?_⟩
  · rw [card_occupiedSlots_install hempty (isEmpty_of_aligned haligned), FdTable.install,
      hslots.numFd_eq]
    norm_cast
  · by_cases hne : other = fd
    · rw [hne, Function.update_self] at hother
      cases hother
    · rw [Function.update_of_ne hne] at hother
      simp only [FdTable.install, FdTable.set, Function.update_of_ne hne, hslots.free other hother]
  · by_cases hne : other = fd
    · subst hne
      simpa only [FdTable.install, FdTable.set, Function.update_self] using haligned
    · rw [Function.update_of_ne hne] at hother
      simpa only [FdTable.install, FdTable.set, Function.update_of_ne hne] using
        hslots.aligned other otherHandle hother
  · by_cases hne : other = fd
    · subst hne
      rw [Function.update_self] at hother
      obtain rfl := Option.some.inj hother
      simpa only [FdTable.install, FdTable.set, Function.update_self] using hwritable
    · rw [Function.update_of_ne hne] at hother
      simpa only [FdTable.install, FdTable.set, Function.update_of_ne hne] using
        hslots.writable other otherHandle hother

/-- Emptying the slot of an open descriptor. -/
theorem SlotsTracked.close (hslots : SlotsTracked table handles) {fd : Fin totalMaxFds}
    {handle : Handle Instance} (hhandle : handles fd = some handle) :
    SlotsTracked { romfsCloseFd table fd with numFd := table.numFd - 1 }
      (Function.update handles fd none) := by
  have hoccupied := isEmpty_of_aligned (hslots.aligned fd handle hhandle)
  refine ⟨?_, fun other hother ↦ ?_, fun other otherHandle hother ↦ ?_,
    fun other otherHandle hother ↦ ?_⟩
  · have hcard := card_occupiedSlots_close hoccupied
    have hnumFd := hslots.numFd_eq
    change table.numFd - 1 = ((occupiedSlots (romfsCloseFd table fd)).card : ℤ)
    omega
  · by_cases hne : other = fd
    · subst hne
      simp only [romfsCloseFd, FdTable.set, Function.update_self]
    · rw [Function.update_of_ne hne] at hother
      simpa only [romfsCloseFd, FdTable.set, Function.update_of_ne hne] using
        hslots.free other hother
  · have hne : other ≠ fd := fun heq ↦ by simp [heq] at hother
    rw [Function.update_of_ne hne] at hother
    simpa only [romfsCloseFd, FdTable.set, Function.update_of_ne hne] using
      hslots.aligned other otherHandle hother
  · have hne : other ≠ fd := fun heq ↦ by simp [heq] at hother
    rw [Function.update_of_ne hne] at hother
    simpa only [romfsCloseFd, FdTable.set, Function.update_of_ne hne] using
      hslots.writable other otherHandle hother

end Slots

/-! ### The writers -/

theorem SizeWritten.mono {pfs after : Fsdata} {baseaddr : ℕ} (hwrites : pfs.writes ⊆ after.writes)
    (hwritten : SizeWritten pfs baseaddr) : SizeWritten after baseaddr := by
  obtain ⟨size, write, hwrite, hfield⟩ := hwritten
  exact ⟨size, write, hwrites hwrite, hfield⟩

section Writers

variable {table : FdTable} {fs : Instance → Fsdata}
  {handles : Fin totalMaxFds → Option (Handle Instance)} {headers : List (Instance × ℕ)}

/-- Replacing the table by one with the same addresses. -/
theorem WritersTracked.setTable (hwriters : WritersTracked table fs handles headers)
    {after : FdTable} (hbase : ∀ fd handle, handles fd = some handle →
      (after.fds fd).baseaddr = (table.fds fd).baseaddr) :
    WritersTracked after fs handles headers := by
  refine ⟨hwriters.flag_iff, hwriters.one_writer, fun inst baseaddr hheader ↦ ?_⟩
  refine (hwriters.sizes_written inst baseaddr hheader).imp_left ?_
  rintro ⟨fd, hopen, hold⟩
  exact ⟨fd, hopen, (hbase fd _ hopen).trans hold⟩

/-- Opening a descriptor that did not create its file. -/
theorem WritersTracked.opened (hwriters : WritersTracked table fs handles headers)
    {fd : Fin totalMaxFds} (hfree : handles fd = none) (file : Fd) (inst : Instance) :
    WritersTracked (table.install fd file) fs (Function.update handles fd (some ⟨inst, false⟩))
      headers := by
  have hcreated : ∀ other inst', Function.update handles fd (some ⟨inst, false⟩) other =
      some ⟨inst', true⟩ ↔ handles other = some ⟨inst', true⟩ := by
    intro other inst'
    by_cases hother : other = fd
    · subst hother
      simp [hfree]
    · rw [Function.update_of_ne hother]
  refine ⟨fun inst' ↦ ?_, fun inst' first second ↦ ?_, fun inst' baseaddr hheader ↦ ?_⟩
  · simpa only [hcreated] using hwriters.flag_iff inst'
  · simpa only [hcreated] using hwriters.one_writer inst' first second
  · refine (hwriters.sizes_written inst' baseaddr hheader).imp_left ?_
    rintro ⟨other, hopen, hbase⟩
    refine ⟨other, (hcreated other inst').mpr hopen, ?_⟩
    have hne : other ≠ fd := fun heq ↦ by simp [heq, hfree] at hopen
    simpa only [FdTable.install, FdTable.set, Function.update_of_ne hne] using hbase

/-- Closing a descriptor that did not create its file. -/
theorem WritersTracked.closedReader (hwriters : WritersTracked table fs handles headers)
    {fd : Fin totalMaxFds} {inst : Instance} (hhandle : handles fd = some ⟨inst, false⟩)
    (numFd : ℤ) :
    WritersTracked { romfsCloseFd table fd with numFd := numFd } fs
      (Function.update handles fd none) headers := by
  have hothers : ∀ other inst', Function.update handles fd none other = some ⟨inst', true⟩ ↔
      handles other = some ⟨inst', true⟩ := by
    intro other inst'
    by_cases hother : other = fd
    · subst hother
      simp [hhandle]
    · rw [Function.update_of_ne hother]
  refine ⟨fun inst' ↦ ?_, fun inst' first second ↦ ?_, fun inst' baseaddr hheader ↦ ?_⟩
  · simpa only [hothers] using hwriters.flag_iff inst'
  · simpa only [hothers] using hwriters.one_writer inst' first second
  · refine (hwriters.sizes_written inst' baseaddr hheader).imp_left ?_
    rintro ⟨other, hopen, hbase⟩
    refine ⟨other, (hothers other inst').mpr hopen, ?_⟩
    have hne : other ≠ fd := fun heq ↦ by simp [heq, hhandle] at hopen
    simpa only [romfsCloseFd, FdTable.set, Function.update_of_ne hne] using hbase

variable [DecidableEq Instance]

/-- Writing to an instance whose mark stays as it is. -/
theorem WritersTracked.updateFs (hwriters : WritersTracked table fs handles headers)
    {inst : Instance} {pfs : Fsdata} (hwriting : pfs.writing = (fs inst).writing)
    (hwrites : (fs inst).writes ⊆ pfs.writes) :
    WritersTracked table (Function.update fs inst pfs) handles headers := by
  refine ⟨fun other ↦ ?_, hwriters.one_writer, fun other baseaddr hheader ↦ ?_⟩
  · by_cases hother : other = inst
    · subst hother
      rw [Function.update_self, hwriting]
      exact hwriters.flag_iff other
    · rw [Function.update_of_ne hother]
      exact hwriters.flag_iff other
  · refine (hwriters.sizes_written other baseaddr hheader).imp_right fun hwritten ↦ ?_
    by_cases hother : other = inst
    · subst hother
      rw [Function.update_self]
      exact hwritten.mono hwrites
    · rwa [Function.update_of_ne hother]

/-- Opening a descriptor that created its file, on an instance on which none is being written. -/
theorem WritersTracked.created (hwriters : WritersTracked table fs handles headers)
    {fd : Fin totalMaxFds} (hfree : handles fd = none) (file : Fd) {inst : Instance}
    (hidle : (fs inst).writing = false) {pfs : Fsdata} (hwriting : pfs.writing = true)
    (hwrites : (fs inst).writes ⊆ pfs.writes) :
    WritersTracked (table.install fd file) (Function.update fs inst pfs)
      (Function.update handles fd (some ⟨inst, true⟩)) (headers ++ [(inst, file.baseaddr)]) := by
  have hnone : ∀ other, handles other ≠ some ⟨inst, true⟩ := fun other hother ↦ by
    rw [(hwriters.flag_iff inst).mpr ⟨other, hother⟩] at hidle
    cases hidle
  have hopened : ∀ other inst', Function.update handles fd (some ⟨inst, true⟩) other =
      some ⟨inst', true⟩ ↔ (other = fd ∧ inst' = inst) ∨ handles other = some ⟨inst', true⟩ := by
    intro other inst'
    by_cases hother : other = fd
    · subst hother
      simp [hfree, eq_comm]
    · simp [hother]
  refine ⟨fun inst' ↦ ?_, fun inst' first second hfirst hsecond ↦ ?_,
    fun inst' baseaddr hheader ↦ ?_⟩
  · by_cases hinst : inst' = inst
    · subst hinst
      rw [Function.update_self]
      exact iff_of_true hwriting ⟨fd, (hopened fd inst').mpr (.inl ⟨rfl, rfl⟩)⟩
    · simpa only [Function.update_of_ne hinst, hopened, hinst, and_false, false_or] using
        hwriters.flag_iff inst'
  · obtain ⟨hfirstFd, hinst⟩ | hfirstOld := (hopened first inst').mp hfirst <;>
      obtain ⟨hsecondFd, hinst⟩ | hsecondOld := (hopened second inst').mp hsecond
    · rw [hfirstFd, hsecondFd]
    · exact absurd (hinst ▸ hsecondOld) (hnone second)
    · exact absurd (hinst ▸ hfirstOld) (hnone first)
    · exact hwriters.one_writer inst' first second hfirstOld hsecondOld
  · rw [List.mem_append, List.mem_singleton, Prod.mk.injEq] at hheader
    obtain hheader | ⟨rfl, rfl⟩ := hheader
    · refine (hwriters.sizes_written inst' baseaddr hheader).imp ?_ fun hwritten ↦ ?_
      · rintro ⟨other, hopen, hbase⟩
        refine ⟨other, (hopened other inst').mpr (.inr hopen), ?_⟩
        have hne : other ≠ fd := fun heq ↦ by simp [heq, hfree] at hopen
        simpa only [FdTable.install, FdTable.set, Function.update_of_ne hne] using hbase
      · by_cases hinst : inst' = inst
        · subst hinst
          rw [Function.update_self]
          exact hwritten.mono hwrites
        · rwa [Function.update_of_ne hinst]
    · refine .inl ⟨fd, (hopened fd inst').mpr (.inl ⟨rfl, rfl⟩), ?_⟩
      simp only [FdTable.install, FdTable.set, Function.update_self]

/-- Closing a descriptor that created its file, with the size written and the mark cleared. -/
theorem WritersTracked.closedWriter (hwriters : WritersTracked table fs handles headers)
    {fd : Fin totalMaxFds} {inst : Instance} (hhandle : handles fd = some ⟨inst, true⟩)
    (numFd : ℤ) {pfs : Fsdata} (hwriting : pfs.writing = false)
    (hwrites : (fs inst).writes ⊆ pfs.writes)
    (hsize : SizeWritten pfs (table.fds fd).baseaddr) :
    WritersTracked { romfsCloseFd table fd with numFd := numFd } (Function.update fs inst pfs)
      (Function.update handles fd none) headers := by
  have hothers : ∀ other inst', Function.update handles fd none other = some ⟨inst', true⟩ ↔
      handles other = some ⟨inst', true⟩ ∧ inst' ≠ inst := by
    intro other inst'
    by_cases hother : other = fd
    · subst hother
      simp [hhandle, eq_comm]
    · rw [Function.update_of_ne hother]
      refine ⟨fun hopen ↦ ⟨hopen, fun heq ↦ hother ?_⟩, And.left⟩
      exact hwriters.one_writer inst other fd (heq ▸ hopen) hhandle
  refine ⟨fun inst' ↦ ?_, fun inst' first second hfirst hsecond ↦ ?_,
    fun inst' baseaddr hheader ↦ ?_⟩
  · by_cases hinst : inst' = inst
    · subst hinst
      simp only [Function.update_self, hwriting, hothers, ne_eq, not_true_eq_false, and_false,
        exists_false, Bool.false_eq_true]
    · simpa only [Function.update_of_ne hinst, hothers, ne_eq, hinst, not_false_eq_true,
        and_true] using hwriters.flag_iff inst'
  · exact hwriters.one_writer inst' first second ((hothers first inst').mp hfirst).1
      ((hothers second inst').mp hsecond).1
  · by_cases hinst : inst' = inst
    · subst hinst
      rw [Function.update_self]
      refine .inr ?_
      obtain ⟨other, hopen, hbase⟩ | hwritten := hwriters.sizes_written inst' baseaddr hheader
      · obtain rfl := hwriters.one_writer inst' other fd hopen hhandle
        exact hbase ▸ hsize
      · exact hwritten.mono hwrites
    · rw [Function.update_of_ne hinst]
      refine (hwriters.sizes_written inst' baseaddr hheader).imp_left ?_
      rintro ⟨other, hopen, hbase⟩
      refine ⟨other, (hothers other inst').mpr ⟨hopen, hinst⟩, ?_⟩
      have hne : other ≠ fd := fun heq ↦ by
        rw [heq, hhandle] at hopen
        exact hinst (congrArg Handle.inst (Option.some.inj hopen)).symm
      simpa only [romfsCloseFd, FdTable.set, Function.update_of_ne hne] using hbase

end Writers

/-! ### Every run -/

section Runs

variable [DecidableEq Instance]

/-- The invariant: the writers and the slots of the table are tracked. -/
structure Tracked (world : World Instance) : Prop where
  writers : WritersTracked world.table world.fs world.handles world.headers
  slots : SlotsTracked world.table world.handles

omit [DecidableEq Instance] in
theorem Tracked.writingTracked {world : World Instance} (htracked : Tracked world) :
    WritingTracked world :=
  ⟨htracked.writers, htracked.slots.numFd_eq⟩

omit [DecidableEq Instance] in
/-- Moving a file pointer. -/
theorem Tracked.moved {world : World Instance} (htracked : Tracked world) {fd : Fin totalMaxFds}
    {handle : Handle Instance} (hhandle : world.handles fd = some handle) {after : FdTable}
    (hmoved : world.table.Moved fd after) : Tracked { world with table := after } := by
  obtain ⟨file, rfl, hbase, hflags⟩ := hmoved
  refine ⟨htracked.writers.setTable fun other otherHandle _ ↦ ?_,
    htracked.slots.set hhandle hbase hflags⟩
  by_cases hother : other = fd
  · subst hother
    simp only [FdTable.set, Function.update_self, hbase]
  · simp only [FdTable.set, Function.update_of_ne hother]

/-- Deleting the old version keeps the mark of an instance and its past writes. -/
theorem invalidateOld_frame (pfs : Fsdata) (lookup : OpenFileResult) :
    (invalidateOld pfs lookup).writing = pfs.writing ∧
      pfs.writes ⊆ (invalidateOld pfs lookup).writes := by
  cases lookup with
  | notFound last => exact ⟨rfl, List.Subset.refl _⟩
  | ok baseaddr size nameaddr => exact ⟨rfl, List.subset_append_left ..⟩

/-- An open keeps the writers tracked if it asks for write access whenever it creates a file. -/
theorem Tracked.open {fuel : ℕ} {world after : World Instance} (htracked : Tracked world)
    {inst : Instance} {path : CString} {flags : OpenFlags} {junk : ℕ}
    (hcreates : CreatesForWriting world (.open inst path flags junk))
    (hopen : world.open fuel inst path flags junk = some after) : Tracked after := by
  cases openEffect_of_open hopen with
  | unchanged => exact htracked
  | @opened baseaddr size nameaddr lflags fd hlookup hdecode hslot =>
    have hempty := isEmpty_of_romfsFindEmptyFd hslot
    have hreadOnly : lflags.writable = false := by
      obtain ⟨-, -, hwritable, hmust, hflags⟩ := decodeOpen_eq_ok_iff.mp hdecode
      rw [hmust, hflags] at hwritable
      exact Bool.eq_false_of_not_eq_true fun h ↦ Bool.noConfusion (hwritable h).1
    exact ⟨htracked.writers.opened (htracked.slots.handles_eq_none hempty) _ _,
      htracked.slots.install hempty (baseaddr_mod_of_found hlookup) hreadOnly⟩
  | @creationFailed lookup lflags hgoes hlookup hdecode =>
    obtain ⟨hwriting, hwrites⟩ := invalidateOld_frame (world.fs inst) lookup
    exact ⟨htracked.writers.updateFs hwriting hwrites, htracked.slots⟩
  | @created lookup probe lflags fd firstfree hgoes hlookup hdecode _ _ _ hslot =>
    have hempty := isEmpty_of_romfsFindEmptyFd hslot
    obtain ⟨-, -, haccess, -, rfl⟩ := decodeOpen_eq_ok_iff.mp hdecode
    have hwritable := hcreates fuel inst path flags junk rfl hgoes
    obtain ⟨-, hwrites⟩ := invalidateOld_frame (world.fs inst) lookup
    exact ⟨htracked.writers.created (htracked.slots.handles_eq_none hempty) _
        (haccess hwritable).2 rfl (List.Subset.trans hwrites (List.subset_append_left ..)),
      htracked.slots.install hempty (dataAddress_mod ..) hwritable⟩

/-- A close keeps the writers tracked. -/
theorem Tracked.close {world after : World Instance} (htracked : Tracked world)
    {fd : Fin totalMaxFds} (hclose : world.close fd = some after) : Tracked after := by
  obtain ⟨⟨inst, created⟩, hhandle, rfl⟩ := Option.map_eq_some_iff.mp hclose
  have hwritable := htracked.slots.writable fd _ hhandle
  refine ⟨?_, htracked.slots.close hhandle⟩
  cases created with
  | false =>
    simp only [romfsCloseR, hwritable, Bool.false_eq_true, if_false, Function.update_eq_self]
    exact htracked.writers.closedReader hhandle _
  | true =>
    simp only [romfsCloseR, hwritable, if_true]
    refine htracked.writers.closedWriter hhandle _ rfl (List.subset_append_left ..) ?_
    exact ⟨(world.table.fds fd).size, _, List.mem_append_right _ (List.mem_singleton.mpr rfl), rfl,
      rfl⟩

/-- Every call keeps the writers tracked if no open creates a file without asking for write
access. -/
theorem Tracked.step {world after : World Instance} {event : FsEvent Instance}
    (htracked : Tracked world) (hcreates : CreatesForWriting world event)
    (hstep : (fsSystem Instance).step world event after) : Tracked after := by
  obtain ⟨fuel, hstep⟩ := hstep
  cases event with
  | «open» inst path flags junk => exact htracked.open hcreates hstep
  | write fd data =>
    obtain ⟨handle, hhandle, hstep⟩ := Option.bind_eq_some_iff.mp hstep
    obtain ⟨outcome, hwrite, rfl⟩ := Option.map_eq_some_iff.mp hstep
    obtain ⟨hmoved, hwriting, hwrites⟩ := romfsWriteR_moved hwrite
    have hafter := htracked.moved hhandle hmoved
    exact ⟨hafter.writers.updateFs hwriting hwrites, hafter.slots⟩
  | read fd len =>
    obtain ⟨handle, hhandle, hstep⟩ := Option.bind_eq_some_iff.mp hstep
    obtain ⟨outcome, hread, rfl⟩ := Option.map_eq_some_iff.mp hstep
    obtain ⟨hsought, hpfs⟩ := romfsReadR_sought hread
    simp only [hpfs, Function.update_eq_self]
    exact htracked.moved hhandle hsought.moved
  | lseek fd off whence =>
    obtain ⟨handle, hhandle, rfl⟩ := Option.map_eq_some_iff.mp hstep
    exact htracked.moved hhandle (romfsLseekR_sought fd off whence world.table).moved
  | close fd => exact htracked.close hstep

omit [DecidableEq Instance] in
/-- At the start of a run nothing is open. -/
theorem tracked_of_initial {world : World Instance} (hinitial : FsInitial world) :
    Tracked world where
  writers :=
    { flag_iff := fun inst ↦ by simp [hinitial.writing_eq, hinitial.handles_eq]
      one_writer := fun inst first second hfirst ↦ by simp [hinitial.handles_eq] at hfirst
      sizes_written := fun inst baseaddr hheader ↦ by simp [hinitial.headers_eq] at hheader }
  slots :=
    { numFd_eq := by
        rw [hinitial.table_eq]
        rfl
      free := fun fd _ ↦ by
        rw [hinitial.table_eq]
        rfl
      aligned := fun fd handle hhandle ↦ by simp [hinitial.handles_eq] at hhandle
      writable := fun fd handle hhandle ↦ by simp [hinitial.handles_eq] at hhandle }

/-- In every run in which each open that goes on to create a file asks for write access, the writers
are tracked in every state. -/
theorem tracked_of_createsForWriting {world : World Instance}
    (hreach : (fsSystem Instance).ReachableUnder CreatesForWriting world) : Tracked world :=
  hreach.invariant Tracked (fun _ hinitial ↦ tracked_of_initial hinitial)
    fun _ _ _ htracked hcreates hstep ↦ htracked.step hcreates hstep

end Runs

end Elua.Romfs
