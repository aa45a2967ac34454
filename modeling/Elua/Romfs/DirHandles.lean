import Elua.Devman.Descriptors
import Elua.Romfs.Mkfs

/-!
# Directory handles on the ROM and WOFS devices

`romfs_opendir_r` returns a pointer to the one static variable `romfs_dir_data`, so all handles on
all instances share one position. `dirSystem` runs `dm_opendir`, `dm_readdir` and `dm_closedir` on
any number of handles, and records for each handle what its own calls have returned.

`Listed` says that the calls on a handle have returned the files of its directory in order, then the
end. A handle is `disturbed` once the shared position has been moved away from it by another handle.
As long as only handles that are not disturbed are read, every handle is listed and every call ends
(`listed_of_undisturbed`).
-/

set_option autoImplicit false
set_option relaxedAutoImplicit false

namespace Elua.Romfs

open Foundation TransitionSystem Devman

/-! ### The device functions -/

/-- `romfs_opendir_r`: the pointer to the shared position, and the position. -/
def romfsOpendirR (dname : List UInt8) (dirData : ℕ) : Option Unit × ℕ :=
  if dname = [] ∨ dname = [slash] then (some (), 0) else (none, dirData)

/-- `romfs_readdir_r` on the shared position: the file or the end, and the position. -/
def romfsReaddirShared (fuel : ℕ) (pfs : Fsdata) (dirData : ℕ) :
    Option (Option DmDirent × ℕ) :=
  (romfsReaddirR fuel pfs dirData).map fun result ↦
    match result with
    | none => (none, dirData)
    | some (entry, next) => (some entry, next)

/-- `romfs_closedir_r`: the shared position. -/
def romfsClosedirR (_dirData : ℕ) : ℕ := 0

/-! ### Runs -/

/-- ROM and WOFS devices whose directories can be listed. -/
structure RomfsDevices (Instance : Type*) where
  table : DmList Instance Unit
  fs : Instance → Fsdata
  /-- The files of a directory. -/
  listing : Instance → List DmDirent
  lists : ∀ inst, ∃ fuel, readdirAll (fs inst) fuel 0 = some (listing inst)

/-- An open handle, with its instance, what its calls of `dm_readdir` have returned, and whether the
shared position has been moved away from it. -/
structure DirHandle (Instance : Type*) where
  dir : DmDir Unit
  inst : Instance
  results : List (Option DmDirent)
  disturbed : Bool

/-- The shared position and the open handles. -/
structure DirWorld (Instance : Type*) where
  dirData : ℕ
  handles : List (DirHandle Instance)

/-- A call. Handles are given by their place among those open. -/
inductive DirEvent
  | opendir (dirname : CString) (allocated : Bool)
  | readdir (index : ℕ)
  | closedir (index : ℕ)

variable {Instance : Type*} (devices : RomfsDevices Instance)

/-- Whether the calls on a handle have returned a file. -/
def DirHandle.moved (handle : DirHandle Instance) : Bool := handle.results.any (·.isSome)

/-- The position goes back to the start: handles that have moved are disturbed. -/
def DirHandle.rewound (handle : DirHandle Instance) : DirHandle Instance :=
  { handle with disturbed := handle.disturbed || handle.moved }

/-- Another handle has been read: if it returned a file, the position has moved on. -/
def DirHandle.passed (result : Option DmDirent) (handle : DirHandle Instance) :
    DirHandle Instance :=
  { handle with disturbed := handle.disturbed || result.isSome }

/-- A call of its own has returned. -/
def DirHandle.returned (result : Option DmDirent) (handle : DirHandle Instance) :
    DirHandle Instance :=
  { handle with results := handle.results ++ [result] }

/-- `dm_opendir`. -/
def DirWorld.opendir (world : DirWorld Instance) (dirname : CString) (allocated : Bool) :
    DirWorld Instance :=
  match dmOpendirTarget devices.table dirname with
  | .error _ => world
  | .ok (_, _, _, rest) =>
    let (data, dirData) := romfsOpendirR rest world.dirData
    let handles := if data.isSome then world.handles.map (·.rewound) else world.handles
    match dmOpendir devices.table dirname (fun _ _ _ ↦ data) allocated with
    | .ok (some (dir, pinst)) => ⟨dirData, handles ++ [⟨dir, pinst.pdata, [], false⟩]⟩
    | _ => ⟨dirData, handles⟩

/-- `dm_readdir`. -/
def DirWorld.readdir (fuel : ℕ) (world : DirWorld Instance) (index : ℕ) :
    Option (DirWorld Instance) :=
  match world.handles[index]? with
  | none => some world
  | some handle =>
    match dmReaddir devices.table handle.dir with
    | .called _ _ inst =>
      (romfsReaddirShared fuel (devices.fs inst) world.dirData).map fun (result, dirData) ↦
        ⟨dirData, (world.handles.map (·.passed result)).set index (handle.returned result)⟩
    | _ => some world

/-- `dm_closedir`. -/
def DirWorld.closedir (world : DirWorld Instance) (index : ℕ) : DirWorld Instance :=
  match world.handles[index]? with
  | none => world
  | some handle =>
    let (outcome, freed) := dmClosedir devices.table handle.dir
    let world := match outcome with
      | .called .. => ⟨romfsClosedirR world.dirData, world.handles.map (·.rewound)⟩
      | _ => world
    if freed then { world with handles := world.handles.eraseIdx index } else world

/-- One call, whose scan ends within the fuel. -/
def dirStep (fuel : ℕ) (world : DirWorld Instance) : DirEvent → Option (DirWorld Instance)
  | .opendir dirname allocated => some (world.opendir devices dirname allocated)
  | .readdir index => world.readdir devices fuel index
  | .closedir index => some (world.closedir devices index)

/-- The runs of directory handles. At the start none is open. -/
def dirSystem : TransitionSystem (DirWorld Instance) DirEvent where
  initial := fun world ↦ world = ⟨0, []⟩
  step := fun world event after ↦ ∃ fuel, dirStep devices fuel world event = some after

/-! ### What a handle is for -/

/-- The first `count` results that the calls on a handle should return: the files in order, then the
end. -/
def expected (listing : List DmDirent) (count : ℕ) : List (Option DmDirent) :=
  (List.range count).map fun index ↦ listing[index]?

/-- The calls on a handle have returned the files of its directory in order, then the end. -/
def DirHandle.Listed (handle : DirHandle Instance) : Prop :=
  handle.results = expected (devices.listing handle.inst) handle.results.length

/-- Every handle is listed, and a call on one that is not disturbed ends. -/
structure HandlesIndependent (world : DirWorld Instance) : Prop where
  listed : ∀ handle ∈ world.handles, handle.Listed devices
  ends : ∀ index handle, world.handles[index]? = some handle → handle.disturbed = false →
    ∃ fuel after, dirStep devices fuel world (.readdir index) = some after

/-- Only handles that are not disturbed are read. -/
def ReadsUndisturbed (world : DirWorld Instance) : DirEvent → Prop
  | .readdir index => ∀ handle, world.handles[index]? = some handle → handle.disturbed = false
  | _ => True

/-! ### The shared position -/

/-- A call from a position with a listing returns its first file, or the end. -/
theorem romfsReaddirShared_spec {pfs : Fsdata} {fuel more off after : ℕ} {rest : List DmDirent}
    {result : Option DmDirent} (hrest : readdirAll pfs fuel off = some rest)
    (hcall : romfsReaddirShared more pfs off = some (result, after)) :
    result = rest.head? ∧ (∃ fuel, readdirAll pfs fuel after = some rest.tail) ∧
      (result = none → after = off) := by
  obtain ⟨found, hfound, heq⟩ := Option.map_eq_some_iff.mp hcall
  cases fuel with
  | zero => cases hrest
  | succ fuel =>
    have hagain := hrest
    rw [readdirAll] at hrest
    obtain ⟨same, hsame, hrest⟩ := Option.bind_eq_some_iff.mp hrest
    obtain rfl := runLoop_unique hfound hsame
    cases found with
    | none =>
      obtain ⟨rfl, rfl⟩ := Prod.mk.inj heq
      obtain rfl := Option.some.inj hrest
      exact ⟨rfl, ⟨_, hagain⟩, fun _ ↦ rfl⟩
    | some found =>
      obtain ⟨entry, next⟩ := found
      obtain ⟨rfl, rfl⟩ := Prod.mk.inj heq
      obtain ⟨others, hothers, rfl⟩ := Option.map_eq_some_iff.mp hrest
      exact ⟨rfl, ⟨fuel, hothers⟩, fun hnone ↦ absurd hnone (Option.some_ne_none _)⟩

/-- A call from a position with a listing ends. -/
theorem exists_romfsReaddirShared {pfs : Fsdata} {fuel off : ℕ} {rest : List DmDirent}
    (hrest : readdirAll pfs fuel off = some rest) :
    ∃ more result, romfsReaddirShared more pfs off = some result := by
  cases fuel with
  | zero => cases hrest
  | succ fuel =>
    rw [readdirAll] at hrest
    obtain ⟨found, hfound, -⟩ := Option.bind_eq_some_iff.mp hrest
    exact ⟨fuel + 1, _, Option.map_eq_some_iff.mpr ⟨found, hfound, rfl⟩⟩

/-! ### Expected results -/

theorem expected_succ (listing : List DmDirent) (count : ℕ) :
    expected listing (count + 1) = expected listing count ++ [listing[count]?] := by
  rw [expected, List.range_succ, List.map_append]
  rfl

/-- While no file has been returned, the whole listing is still to come. -/
theorem drop_of_not_any {listing : List DmDirent} {count : ℕ}
    (hnone : (expected listing count).any (·.isSome) = false) : listing.drop count = listing := by
  cases count with
  | zero => rfl
  | succ count =>
    have hfirst : listing[0]? ∈ expected listing (count + 1) :=
      List.mem_map.mpr ⟨0, List.mem_range.mpr (Nat.succ_pos _), rfl⟩
    have hempty := List.any_eq_false.mp hnone _ hfirst
    cases listing with
    | nil => exact List.drop_nil
    | cons entry listing => exact absurd rfl hempty

/-! ### The invariant -/

/-- A handle is listed, it has its device, and unless it is disturbed the rest of its directory is
listed from the shared position. -/
structure DirHandle.At (dirData : ℕ) (handle : DirHandle Instance) : Prop where
  listed : handle.Listed devices
  device : ∃ pinst, devices.table.devs[handle.dir.devid]? = some pinst ∧ pinst.pdata = handle.inst
  position : handle.disturbed = false → ∃ fuel,
    readdirAll (devices.fs handle.inst) fuel dirData =
      some ((devices.listing handle.inst).drop handle.results.length)

variable {devices} {dirData after : ℕ} {handle : DirHandle Instance}

/-- A handle that has not moved may start again. -/
theorem DirHandle.At.rewound (hat : handle.At devices dirData) : handle.rewound.At devices 0 where
  listed := hat.listed
  device := hat.device
  position := fun hcalm ↦ by
    obtain ⟨-, hmoved⟩ := Bool.or_eq_false_iff.mp hcalm
    unfold DirHandle.moved at hmoved
    rw [(hat.listed : handle.results = _)] at hmoved
    obtain ⟨fuel, hlists⟩ := devices.lists handle.inst
    refine ⟨fuel, ?_⟩
    change _ = some ((devices.listing handle.inst).drop handle.results.length)
    rw [drop_of_not_any hmoved]
    exact hlists

/-- A call on another handle that returns the end moves nothing. -/
theorem DirHandle.At.passed (hat : handle.At devices dirData) {result : Option DmDirent}
    (hsame : result = none → after = dirData) : (handle.passed result).At devices after where
  listed := hat.listed
  device := hat.device
  position := fun hcalm ↦ by
    obtain ⟨hcalm, hend⟩ := Bool.or_eq_false_iff.mp hcalm
    rw [hsame (Option.isNone_iff_eq_none.mp (Option.isSome_eq_false_iff.mp hend))]
    exact hat.position hcalm

/-- A call of its own goes one file further. -/
theorem DirHandle.At.returned (hat : handle.At devices dirData) (hcalm : handle.disturbed = false)
    {fuel : ℕ} {result : Option DmDirent}
    (hcall : romfsReaddirShared fuel (devices.fs handle.inst) dirData = some (result, after)) :
    (handle.returned result).At devices after ∧ (result = none → after = dirData) := by
  obtain ⟨enough, hrest⟩ := hat.position hcalm
  obtain ⟨hresult, hnext, hsame⟩ := romfsReaddirShared_spec hrest hcall
  rw [List.head?_drop] at hresult
  rw [List.tail_drop] at hnext
  have hlength : (handle.returned result).results.length = handle.results.length + 1 :=
    List.length_append
  refine ⟨⟨?_, hat.device, fun _ ↦ ?_⟩, hsame⟩
  · unfold DirHandle.Listed
    rw [hlength, expected_succ]
    rw [hresult]
    exact congrArg (· ++ [(devices.listing handle.inst)[handle.results.length]?]) hat.listed
  · rw [hlength]
    exact hnext

/-- The call of the device for a handle that has its device. -/
theorem DirHandle.At.dmReaddir_eq (hat : handle.At devices dirData) :
    (∃ function, dmReaddir devices.table handle.dir =
      .called function handle.dir.userdata handle.inst) ∨
        ∃ errno, dmReaddir devices.table handle.dir = .failed errno := by
  obtain ⟨pinst, hpinst, hpdata⟩ := hat.device
  unfold dmReaddir dmGetInstanceAt
  rw [hpinst]
  dsimp only
  cases pinst.pdev .readdir with
  | none => exact .inr ⟨_, rfl⟩
  | some function => exact .inl ⟨function, by rw [hpdata]⟩

/-- Every open handle stands where its calls left it. -/
def HandlesAt (devices : RomfsDevices Instance) (world : DirWorld Instance) : Prop :=
  ∀ handle ∈ world.handles, handle.At devices world.dirData

variable {world next : DirWorld Instance}

/-- All handles start again. -/
theorem HandlesAt.rewound (hat : HandlesAt devices world) :
    ∀ handle ∈ world.handles.map (·.rewound), handle.At devices 0 := by
  intro handle hhandle
  obtain ⟨before, hbefore, rfl⟩ := List.mem_map.mp hhandle
  exact (hat before hbefore).rewound

theorem HandlesAt.opendir (hat : HandlesAt devices world) (dirname : CString) (allocated : Bool) :
    HandlesAt devices (world.opendir devices dirname allocated) := by
  unfold DirWorld.opendir
  split
  · exact hat
  · rename_i rest htarget
    unfold romfsOpendirR
    split_ifs with hroot
    · -- the function of the device has set the position back
      dsimp only
      rw [Option.isSome_some, if_pos rfl]
      split
      · rename_i dir pinst hopen
        refine List.forall_mem_append.mpr ⟨hat.rewound, List.forall_mem_singleton.mpr ?_⟩
        exact ⟨rfl, ⟨pinst, dmOpendir_ok hopen, rfl⟩, fun _ ↦ devices.lists pinst.pdata⟩
      · exact hat.rewound
    · dsimp only
      rw [Option.isSome_none, if_neg Bool.false_ne_true]
      split
      · rename_i dir pinst hopen
        unfold dmOpendir at hopen
        rw [htarget] at hopen
        cases hopen
      · exact hat

theorem HandlesAt.readdir (hat : HandlesAt devices world) {fuel index : ℕ}
    (hcalm : ∀ handle, world.handles[index]? = some handle → handle.disturbed = false)
    (hstep : world.readdir devices fuel index = some next) : HandlesAt devices next := by
  unfold DirWorld.readdir at hstep
  cases hindex : world.handles[index]? with
  | none =>
    rw [hindex] at hstep
    exact Option.some.inj hstep ▸ hat
  | some handle =>
    have hhandle := hat handle (List.mem_of_getElem? hindex)
    rw [hindex] at hstep
    dsimp only at hstep
    obtain ⟨function, hcall⟩ | ⟨errno, hfailed⟩ := hhandle.dmReaddir_eq
    · rw [hcall] at hstep
      obtain ⟨⟨result, dirData⟩, hshared, rfl⟩ := Option.map_eq_some_iff.mp hstep
      obtain ⟨hreturned, hsame⟩ := hhandle.returned (hcalm handle hindex) hshared
      intro other hother
      obtain hother | rfl := List.mem_or_eq_of_mem_set hother
      · obtain ⟨before, hbefore, rfl⟩ := List.mem_map.mp hother
        exact (hat before hbefore).passed hsame
      · exact hreturned
    · rw [hfailed] at hstep
      exact Option.some.inj hstep ▸ hat

theorem HandlesAt.closedir (hat : HandlesAt devices world) (index : ℕ) :
    HandlesAt devices (world.closedir devices index) := by
  have herase : ∀ {state : DirWorld Instance} (freed : Bool), HandlesAt devices state →
      HandlesAt devices (if freed then { state with handles := state.handles.eraseIdx index }
        else state) := by
    intro state freed hstate
    split_ifs
    · exact fun handle hhandle ↦ hstate handle (List.mem_of_mem_eraseIdx hhandle)
    · exact hstate
  unfold DirWorld.closedir
  split
  · exact hat
  · apply herase
    split
    · exact hat.rewound
    · exact hat

theorem HandlesAt.step (hat : HandlesAt devices world) {event : DirEvent}
    (hpermitted : ReadsUndisturbed world event) {fuel : ℕ}
    (hstep : dirStep devices fuel world event = some next) : HandlesAt devices next := by
  cases event with
  | opendir dirname allocated =>
    obtain rfl := Option.some.inj hstep
    exact hat.opendir dirname allocated
  | readdir index => exact hat.readdir hpermitted hstep
  | closedir index =>
    obtain rfl := Option.some.inj hstep
    exact hat.closedir index

/-- A call on a handle that is not disturbed ends. -/
theorem HandlesAt.exists_readdir (hat : HandlesAt devices world) {index : ℕ}
    (hindex : world.handles[index]? = some handle) (hcalm : handle.disturbed = false) :
    ∃ fuel after, dirStep devices fuel world (.readdir index) = some after := by
  have hhandle := hat handle (List.mem_of_getElem? hindex)
  obtain ⟨enough, hrest⟩ := hhandle.position hcalm
  obtain ⟨fuel, ⟨result, dirData⟩, hshared⟩ := exists_romfsReaddirShared hrest
  refine ⟨fuel, ?_⟩
  change ∃ after, world.readdir devices fuel index = some after
  unfold DirWorld.readdir
  rw [hindex]
  dsimp only
  obtain ⟨function, hcall⟩ | ⟨errno, hfailed⟩ := hhandle.dmReaddir_eq
  · rw [hcall]
    exact ⟨_, Option.map_eq_some_iff.mpr ⟨_, hshared, rfl⟩⟩
  · rw [hfailed]
    exact ⟨world, rfl⟩

/-- In every run that reads only handles the shared position has not been moved away from, the calls
on each handle have returned the files of its directory in order and then the end, and the next call
ends. -/
theorem listed_of_undisturbed
    (hreach : (dirSystem devices).ReachableUnder ReadsUndisturbed world) :
    HandlesIndependent devices world := by
  have hat : HandlesAt devices world := by
    refine hreach.invariant (HandlesAt devices) ?_ ?_
    · rintro _ rfl
      exact fun _ hmem ↦ absurd hmem List.not_mem_nil
    · rintro state event next hat hpermitted ⟨fuel, hstep⟩
      exact hat.step hpermitted hstep
  exact ⟨fun handle hhandle ↦ (hat handle hhandle).listed,
    fun index handle hindex hcalm ↦ hat.exists_readdir hindex hcalm⟩

/-! ### Two files -/

/-- A ROM file system "/r" with the two empty files "a" and "b". -/
def twoEmptyFiles : RomfsDevices Unit where
  table := (dmRegister .empty (some ⟨[0x2F, 0x72], by decide⟩) () (some fun _ ↦ some ())).2
  fs := fun _ ↦
    { direct := true, wo := false, writing := false, maxSize := 17
      image := [0x61, 0, 0, 0, 0, 0, 0, 0, 0x62, 0, 0, 0, 0, 0, 0, 0, 0xFF], writes := [] }
  listing := fun _ ↦ [⟨[0x61], 0⟩, ⟨[0x62], 0⟩]
  lists := fun _ ↦ ⟨3, by decide⟩

/-- The root of that file system. -/
def twoEmptyFilesRoot : CString := ⟨[0x2F, 0x72], by decide⟩

/-- The state with some handles open on that file system, given by what their calls have returned
and whether they are disturbed. -/
def twoEmptyFilesWorld (dirData : ℕ) (handles : List (List (Option DmDirent) × Bool)) :
    DirWorld Unit :=
  ⟨dirData, handles.map fun handle ↦ ⟨⟨0, ()⟩, (), handle.1, handle.2⟩⟩

theorem reachable_twoEmptyFiles_opened {permitted : DirWorld Unit → DirEvent → Prop}
    (hpermitted : permitted ⟨0, []⟩ (.opendir twoEmptyFilesRoot true)) :
    (dirSystem twoEmptyFiles).ReachableUnder permitted (twoEmptyFilesWorld 0 [([], false)]) :=
  .next (.start rfl) hpermitted ⟨0, rfl⟩

/-- One handle is opened and read once. -/
theorem listed_one_read :
    dirStep twoEmptyFiles 2 (twoEmptyFilesWorld 0 [([], false)]) (.readdir 0) =
        some (twoEmptyFilesWorld 8 [([some ⟨[0x61], 0⟩], false)]) ∧
      HandlesIndependent twoEmptyFiles (twoEmptyFilesWorld 8 [([some ⟨[0x61], 0⟩], false)]) := by
  refine ⟨rfl, listed_of_undisturbed ((reachable_twoEmptyFiles_opened trivial).andThen
    (.readdir 0) ?_ ⟨2, rfl⟩)⟩
  intro handle hindex
  obtain rfl := Option.some.inj hindex
  rfl

/-- Two handles on the same directory are each read once: the second returns the second file. -/
theorem second_handle_misses_a_file :
    ¬ ∀ (devices : RomfsDevices Unit) (world : DirWorld Unit),
      (dirSystem devices).Reachable world → HandlesIndependent devices world := by
  intro hall
  have hopened : (dirSystem twoEmptyFiles).Reachable
      (twoEmptyFilesWorld 0 [([], false), ([], false)]) :=
    (reachable_twoEmptyFiles_opened trivial).andThen (.opendir twoEmptyFilesRoot true) trivial
      ⟨0, rfl⟩
  have hfirst : (dirSystem twoEmptyFiles).Reachable
      (twoEmptyFilesWorld 8 [([some ⟨[0x61], 0⟩], false), ([], true)]) :=
    hopened.andThen (.readdir 0) trivial ⟨2, rfl⟩
  have hsecond : (dirSystem twoEmptyFiles).Reachable
      (twoEmptyFilesWorld 16 [([some ⟨[0x61], 0⟩], true), ([some ⟨[0x62], 0⟩], true)]) :=
    hfirst.andThen (.readdir 1) trivial ⟨2, rfl⟩
  have hlisted := (hall twoEmptyFiles _ hsecond).listed _
    (List.mem_cons_of_mem _ List.mem_cons_self)
  exact absurd (List.cons.inj hlisted).1 (by decide)

end Elua.Romfs
