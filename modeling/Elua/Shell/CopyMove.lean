import Elua.Shell.Storage
import Mathlib.Data.List.TakeDrop
import Mathlib.Logic.Function.Basic
import Mathlib.Tactic.Ring

/-!
# Copying and moving a file

`shellh_cp_file` with its copy loop, and `shellh_cp_or_mv_file`, the operation on one file behind
`cp` and `mv`. A simulated operation should change nothing. Otherwise, in every state that is
passed, the source or the destination should hold the complete contents, and after a reported
failure the source (`KeepsOnlyCopy`).

`keepsOnlyCopy_iff`: this is so except in three cases (`Destroys`). A simulated move calls `rename`
and `unlink` all the same. A destination that is the source under another name is truncated before
it is read. And after a copy for a move, the source goes even if the last read came short before the
end of the source, which is what `rfs_read_r` makes of an error. -/

set_option autoImplicit false
set_option relaxedAutoImplicit false

namespace Elua.Shell

open Foundation

variable {File : Type} [DecidableEq File]

/-! ### The code -/

/-- `SHELL_F_FORCE_DESTINATION`. -/
def shellFForceDestination : ℕ := 2

/-- `SHELL_F_ASK_CONFIRMATION`. -/
def shellFAskConfirmation : ℕ := 4

/-- `SHELL_F_SIMULATE_ONLY`. -/
def shellFSimulateOnly : ℕ := 8

/-- `SHELL_F_MOVE`. -/
def shellFMove : ℕ := 32

/-- `flags & flag`. -/
def hasFlag (flags flag : ℕ) : Bool := decide (flags &&& flag ≠ 0)

/-- The loop of `shellh_cp_file`: whether it gets to its end. -/
def copyLoop (storage : Storage File) (outcomes : Outcomes) (fds fdd : File) (fuel turn total : ℕ)
    (world : World File) : Option (Bool × World File) :=
  match fuel with
  | 0 => none
  | fuel + 1 =>
    match readFile (storage.onRfs fds) (outcomes.read turn) (((world.files fds).getD []).drop total)
      storage.copyBufsize with
    | none => some (false, world)
    | some data =>
      let (datawrote, stored) := writeFile (storage.onRfs fdd) (outcomes.write turn) data
      let world := world.become
        (Function.update world.files fdd (some ((world.files fdd).getD [] ++ stored)))
      match datawrote with
      | none => some (false, world)
      | some datawrote =>
        if datawrote < data.length then some (false, world)
        else if data.length < storage.copyBufsize then some (true, world)
        else copyLoop storage outcomes fds fdd fuel (turn + 1) (total + data.length) world

/-- `shellh_cp_file`. -/
def shellhCpFile (storage : Storage File) (outcomes : Outcomes) (psrcname pdestname : CString)
    (flags fuel : ℕ) (world : World File) : Option (Bool × World File) :=
  let fds := storage.resolve psrcname
  let fdd := storage.resolve pdestname
  if strcasecmp psrcname.bytes pdestname.bytes = 0 then some (false, world)
  else if hasFlag flags shellFAskConfirmation ∧ outcomes.confirmsCopy = false then
    some (false, world)
  else if ¬ (outcomes.opensSource ∧ (world.files fds).isSome) then some (false, world)
  else if hasFlag flags shellFForceDestination = false ∧
      (outcomes.opensProbe ∧ (world.files fdd).isSome) ∧ outcomes.confirmsOverwrite = false then
    some (false, world)
  else if outcomes.allocates = false then some (false, world)
  else if hasFlag flags shellFSimulateOnly then some (true, world)
  else if outcomes.opensDestination = false then some (false, world)
  else copyLoop storage outcomes fds fdd fuel 0 0
    (world.become (Function.update world.files fdd (some [])))

/-- `rename`. A file that does not exist is not moved, and one that is moved onto itself stays. -/
def renameFile (outcome : NameOutcome) (source destination : File) (world : World File) :
    NameOutcome × World File :=
  match outcome, world.files source with
  | .done, some contents =>
    (.done, if source = destination then world
      else world.become (Function.update (Function.update world.files destination (some contents))
        source none))
  | .done, none => (.failed, world)
  | outcome, _ => (outcome, world)

/-- `unlink`. -/
def unlinkFile (outcome : NameOutcome) (file : File) (world : World File) :
    NameOutcome × World File :=
  match outcome, world.files file with
  | .done, some _ => (.done, world.become (Function.update world.files file none))
  | .done, none => (.failed, world)
  | outcome, _ => (outcome, world)

/-- The end of `shellh_cp_or_mv_file`, after the copy. -/
def finishMove (storage : Storage File) (outcomes : Outcomes) (psrc : CString) (flags : ℕ) :
    Bool × World File → Bool × World File
  | (copied, world) =>
    if copied = false then (false, world)
    else if hasFlag flags shellFMove then
      match unlinkFile outcomes.unlink (storage.resolve psrc) world with
      | (.exdev, world) | (.failed, world) => (false, world)
      | (.done, world) | (.code, world) => (true, world)
    else (true, world)

/-- The part of `shellh_cp_or_mv_file` that copies. -/
def copyAndRemove (storage : Storage File) (outcomes : Outcomes) (psrc pdest : CString)
    (flags fuel : ℕ) (world : World File) : Option (Bool × World File) :=
  (shellhCpFile storage outcomes psrc pdest flags fuel world).map
    (finishMove storage outcomes psrc flags)

/-- `shellh_cp_or_mv_file`: whether it reports success. -/
def shellhCpOrMvFile (storage : Storage File) (outcomes : Outcomes) (psrc pdest : CString)
    (flags fuel : ℕ) (world : World File) : Option (Bool × World File) :=
  if hasFlag flags shellFMove then
    match renameFile outcomes.rename (storage.resolve psrc) (storage.resolve pdest) world with
    | (.exdev, world) => copyAndRemove storage outcomes psrc pdest flags fuel world
    | (.failed, world) => some (false, world)
    | (.done, world) | (.code, world) => some (true, world)
  else copyAndRemove storage outcomes psrc pdest flags fuel world

/-! ### What is promised, and when it is broken -/

/-- The contents are in the source or in the destination in every state, and in the source after a
failure. -/
def KeepsContents (source destination : File) (contents : List UInt8) (reported : Bool)
    (after : World File) : Prop :=
  (∀ state ∈ after.files :: after.passed,
    state source = some contents ∨ state destination = some contents) ∧
  (reported = false → after.files source = some contents)

/-- A simulated operation changes nothing. Any other one keeps the contents of the source. -/
def KeepsOnlyCopy (storage : Storage File) (psrc pdest : CString) (flags : ℕ) (before : Files File)
    (reported : Bool) (after : World File) : Prop :=
  if hasFlag flags shellFSimulateOnly then ∀ state ∈ after.files :: after.passed, state = before
  else ∀ contents, before (storage.resolve psrc) = some contents →
    KeepsContents (storage.resolve psrc) (storage.resolve pdest) contents reported after

/-- Nothing keeps `shellh_cp_file` from copying: the names differ, both files can be opened as far
as they are, the user agrees and there is memory. -/
structure CopyAllowed (storage : Storage File) (outcomes : Outcomes) (psrc pdest : CString)
    (flags : ℕ) (files : Files File) : Prop where
  names : strcasecmp psrc.bytes pdest.bytes ≠ 0
  confirms : hasFlag flags shellFAskConfirmation = true → outcomes.confirmsCopy = true
  opens : outcomes.opensSource = true ∧ (files (storage.resolve psrc)).isSome = true
  overwrites : hasFlag flags shellFForceDestination = false → outcomes.opensProbe = true →
    (files (storage.resolve pdest)).isSome = true → outcomes.confirmsOverwrite = true
  allocates : outcomes.allocates = true

/-- All of what a turn of the copy loop reads is written. -/
def Copies (storage : Storage File) (outcomes : Outcomes) (fds fdd : File) (contents : List UInt8)
    (turn : ℕ) (data : List UInt8) : Prop :=
  readFile (storage.onRfs fds) (outcomes.read turn) (contents.drop (turn * storage.copyBufsize))
    storage.copyBufsize = some data ∧
  ∃ count, (writeFile (storage.onRfs fdd) (outcomes.write turn) data).1 = some count ∧
    data.length ≤ count

/-- The first read that does not fill the buffer comes after this many bytes, and all that is read
is written. -/
def CopyEnds (storage : Storage File) (outcomes : Outcomes) (fds fdd : File)
    (contents : List UInt8) (total : ℕ) : Prop :=
  ∃ turn data, Copies storage outcomes fds fdd contents turn data ∧
    data.length < storage.copyBufsize ∧ total = turn * storage.copyBufsize + data.length ∧
    ∀ earlier < turn, ∃ full, Copies storage outcomes fds fdd contents earlier full ∧
      full.length = storage.copyBufsize

/-- A simulated move that changes something. -/
def SimulationChanges (storage : Storage File) (outcomes : Outcomes) (psrc pdest : CString)
    (flags : ℕ) (files : Files File) : Prop :=
  hasFlag flags shellFMove = true ∧ (files (storage.resolve psrc)).isSome = true ∧
    (outcomes.rename = .done ∧ storage.resolve psrc ≠ storage.resolve pdest ∨
      outcomes.rename = .exdev ∧ outcomes.unlink = .done ∧
        CopyAllowed storage outcomes psrc pdest flags files)

/-- A copy that loses contents of the source: it truncates the source, which is the destination too,
or it comes to its end before all is copied, and the source is removed. -/
def CopyLoses (storage : Storage File) (outcomes : Outcomes) (psrc pdest : CString) (flags : ℕ)
    (contents : List UInt8) : Prop :=
  let fds := storage.resolve psrc
  let fdd := storage.resolve pdest
  fds = fdd ∧ contents ≠ [] ∨
    hasFlag flags shellFMove = true ∧ outcomes.unlink = .done ∧
      ∃ total, CopyEnds storage outcomes fds fdd (if fds = fdd then [] else contents) total ∧
        (fds = fdd ∨ total < contents.length)

/-- The cases in which the promise is broken. -/
def Destroys (storage : Storage File) (outcomes : Outcomes) (psrc pdest : CString) (flags : ℕ)
    (files : Files File) : Prop :=
  if hasFlag flags shellFSimulateOnly then SimulationChanges storage outcomes psrc pdest flags files
  else (hasFlag flags shellFMove = true → outcomes.rename = .exdev) ∧
    CopyAllowed storage outcomes psrc pdest flags files ∧ outcomes.opensDestination = true ∧
    ∃ contents, files (storage.resolve psrc) = some contents ∧
      CopyLoses storage outcomes psrc pdest flags contents

variable {storage : Storage File} {outcomes : Outcomes} {psrc pdest : CString} {flags fuel : ℕ}

/-! ### The copy loop -/

section CopyLoop

variable {fds fdd : File} {contents : List UInt8}

/-- What the copy loop leaves: the source with its contents, and in the destination what was copied.
-/
structure CopyLeaves (storage : Storage File) (outcomes : Outcomes) (fds fdd : File)
    (contents : List UInt8) (before : World File) (reported : Bool) (after : World File) :
    Prop where
  source : after.files fds = some contents
  passed : ∀ state ∈ after.passed, state ∈ before.passed ∨ state fds = some contents
  copied : reported = true → ∃ total, CopyEnds storage outcomes fds fdd contents total ∧
    after.files fdd = some (contents.take total)
  stops : reported = false → ∀ total, ¬ CopyEnds storage outcomes fds fdd contents total

omit [DecidableEq File] in
/-- The loop does not come to its end if it is stuck in a turn that it comes to. -/
theorem not_copyEnds {turn : ℕ}
    (hearlier : ∀ earlier < turn, ∃ full, Copies storage outcomes fds fdd contents earlier full ∧
      full.length = storage.copyBufsize)
    (hstuck : ∀ data, ¬ Copies storage outcomes fds fdd contents turn data) (total : ℕ) :
    ¬ CopyEnds storage outcomes fds fdd contents total := by
  rintro ⟨last, data, hcopies, hshort, -, hbefore⟩
  obtain hless | rfl | hmore := Nat.lt_trichotomy last turn
  · obtain ⟨full, hfull, hlength⟩ := hearlier last hless
    obtain rfl := Option.some.inj (hcopies.1.symm.trans hfull.1)
    omega
  · exact hstuck data hcopies
  · obtain ⟨full, hfull, -⟩ := hbefore turn hmore
    exact hstuck full hfull

omit [DecidableEq File] in
/-- There is only one end. -/
theorem CopyEnds.unique {first second : ℕ}
    (hfirst : CopyEnds storage outcomes fds fdd contents first)
    (hsecond : CopyEnds storage outcomes fds fdd contents second) : first = second := by
  obtain ⟨turn, data, hcopies, hshort, rfl, hbefore⟩ := hfirst
  obtain ⟨other, more, hmore, hless, rfl, hearlier⟩ := hsecond
  obtain hbelow | rfl | habove := Nat.lt_trichotomy turn other
  · obtain ⟨full, hfull, hlength⟩ := hearlier turn hbelow
    obtain rfl := Option.some.inj (hcopies.1.symm.trans hfull.1)
    omega
  · obtain rfl := Option.some.inj (hcopies.1.symm.trans hmore.1)
    rfl
  · obtain ⟨full, hfull, hlength⟩ := hbefore other habove
    obtain rfl := Option.some.inj (hmore.1.symm.trans hfull.1)
    omega

/-- The source keeps its contents in a turn. It is empty if it is the destination, and then nothing
is read and nothing is written. -/
theorem source_of_turn (storage : Storage File) (outcomes : Outcomes) (turn : ℕ)
    {world : World File} {data sofar : List UInt8}
    (hempty : fds = fdd → contents = []) (hsource : world.files fds = some contents)
    (hdest : world.files fdd = some sofar) (hbegins : data <+: contents.drop (sofar.length)) :
    Function.update world.files fdd (some ((world.files fdd).getD [] ++
      (writeFile (storage.onRfs fdd) (outcomes.write turn) data).2)) fds = some contents := by
  by_cases hsame : fds = fdd
  · obtain rfl := hempty hsame
    rw [List.drop_nil] at hbegins
    have hwritten := (writeFile_spec (storage.onRfs fdd) (outcomes.write turn) data).1
    have hnil := List.prefix_nil.mp (hwritten.trans hbegins)
    have hnone : sofar = [] := by
      rw [← hsame, hsource] at hdest
      exact (Option.some.inj hdest).symm
    rw [hdest, hnil, hnone, hsame, Function.update_self]
    rfl
  · exact (Function.update_of_ne hsame ..).trans hsource

/-- A turn that is come to with everything copied so far: it is stuck, or all of what it reads is
written and it is the last one if the buffer is not filled. -/
theorem copyLoop_turn (storage : Storage File) (outcomes : Outcomes) (fuel turn : ℕ)
    {world : World File} (hempty : fds = fdd → contents = [])
    (hsource : world.files fds = some contents)
    (hdest : world.files fdd = some (contents.take (turn * storage.copyBufsize)))
    (hturn : turn * storage.copyBufsize ≤ contents.length) :
    ∃ next : World File, next.files fds = some contents ∧
      (∀ state ∈ next.passed, state ∈ world.passed ∨ state fds = some contents) ∧
      ((∀ data, ¬ Copies storage outcomes fds fdd contents turn data) ∧
          copyLoop storage outcomes fds fdd (fuel + 1) turn (turn * storage.copyBufsize) world =
            some (false, next) ∨
        ∃ data, Copies storage outcomes fds fdd contents turn data ∧
          turn * storage.copyBufsize + data.length ≤ contents.length ∧
          next.files fdd =
            some (contents.take (turn * storage.copyBufsize + data.length)) ∧
          copyLoop storage outcomes fds fdd (fuel + 1) turn (turn * storage.copyBufsize) world =
            if data.length < storage.copyBufsize then some (true, next)
            else copyLoop storage outcomes fds fdd fuel (turn + 1)
              (turn * storage.copyBufsize + data.length) next) := by
  rw [copyLoop, hsource, Option.getD_some]
  cases hread : readFile (storage.onRfs fds) (outcomes.read turn)
      (contents.drop (turn * storage.copyBufsize)) storage.copyBufsize with
  | none =>
    refine ⟨world, hsource, fun state hstate ↦ .inl hstate, .inl ⟨?_, rfl⟩⟩
    rintro data ⟨hdata, -⟩
    rw [hread] at hdata
    cases hdata
  | some data =>
    obtain ⟨hbegins, -⟩ := readFile_begins hread
    dsimp only
    have hlength : (contents.take (turn * storage.copyBufsize)).length =
        turn * storage.copyBufsize := List.length_take_of_le hturn
    have hnext : data <+: contents.drop (contents.take (turn * storage.copyBufsize)).length := by
      rw [hlength]
      exact hbegins
    have hkept := source_of_turn storage outcomes turn hempty hsource hdest hnext
    refine ⟨world.become (Function.update world.files fdd (some ((world.files fdd).getD [] ++
      (writeFile (storage.onRfs fdd) (outcomes.write turn) data).2))), hkept,
      fun state hstate ↦ ?_, ?_⟩
    · obtain rfl | hbefore := List.mem_cons.mp hstate
      · exact .inr hkept
      · exact .inl hbefore
    · cases hwrote : (writeFile (storage.onRfs fdd) (outcomes.write turn) data).1 with
      | none =>
        refine .inl ⟨?_, rfl⟩
        rintro other ⟨hother, count, hcount, -⟩
        obtain rfl := Option.some.inj (hread.symm.trans hother)
        rw [hwrote] at hcount
        cases hcount
      | some datawrote =>
        dsimp only
        by_cases hless : datawrote < data.length
        · rw [if_pos hless]
          refine .inl ⟨?_, rfl⟩
          rintro other ⟨hother, count, hcount, hall⟩
          obtain rfl := Option.some.inj (hread.symm.trans hother)
          obtain rfl := Option.some.inj (hwrote.symm.trans hcount)
          omega
        · rw [if_neg hless]
          have hroom := hbegins.length_le
          rw [List.length_drop] at hroom
          refine .inr ⟨data, ⟨hread, datawrote, hwrote, Nat.le_of_not_lt hless⟩, by omega, ?_, rfl⟩
          change Function.update world.files fdd _ fdd = _
          rw [Function.update_self, hdest, Option.getD_some, stored_eq_of_count hwrote hless,
            List.take_add, ← List.prefix_iff_eq_take.mp hbegins]

/-- What the loop does from a turn on that it comes to with everything copied so far. The source is
empty if it is the destination. -/
theorem copyLoop_leaves (storage : Storage File) (outcomes : Outcomes)
    (hempty : fds = fdd → contents = []) :
    ∀ fuel turn (world : World File), world.files fds = some contents →
      world.files fdd = some (contents.take (turn * storage.copyBufsize)) →
      turn * storage.copyBufsize ≤ contents.length → contents.length < turn + fuel →
      (∀ earlier < turn, ∃ full, Copies storage outcomes fds fdd contents earlier full ∧
        full.length = storage.copyBufsize) →
      ∃ reported after,
        copyLoop storage outcomes fds fdd fuel turn (turn * storage.copyBufsize) world =
          some (reported, after) ∧
        CopyLeaves storage outcomes fds fdd contents world reported after := by
  intro fuel
  induction fuel with
  | zero =>
    intro turn world hsource hdest hturn hfuel
    have hle := Nat.le_mul_of_pos_right turn storage.copyBufsize_pos
    omega
  | succ fuel ih =>
    intro turn world hsource hdest hturn hfuel hearlier
    obtain ⟨next, hkept, hpassed, ⟨hstuck, hrun⟩ | ⟨data, hcopies, hroom, hstored, hrun⟩⟩ :=
      copyLoop_turn storage outcomes fuel turn hempty hsource hdest hturn
    · exact ⟨false, next, hrun, hkept, hpassed, fun hfalse ↦ (by cases hfalse),
        fun _ ↦ not_copyEnds hearlier hstuck⟩
    · rw [hrun]
      by_cases hshort : data.length < storage.copyBufsize
      · rw [if_pos hshort]
        exact ⟨true, next, rfl, hkept, hpassed,
          fun _ ↦ ⟨_, ⟨turn, data, hcopies, hshort, rfl, hearlier⟩, hstored⟩,
          fun hfalse ↦ by cases hfalse⟩
      · rw [if_neg hshort]
        have hfull : data.length = storage.copyBufsize :=
          Nat.le_antisymm (readFile_begins hcopies.1).2 (Nat.le_of_not_lt hshort)
        have hsum : turn * storage.copyBufsize + data.length =
            (turn + 1) * storage.copyBufsize := by
          rw [hfull]
          ring
        rw [hsum] at hstored hroom ⊢
        obtain ⟨reported, after, hrest, hleaves⟩ := ih (turn + 1) next hkept hstored hroom
          (by omega) fun earlier hbefore ↦ by
            obtain hbelow | rfl := Nat.lt_succ_iff_lt_or_eq.mp hbefore
            · exact hearlier earlier hbelow
            · exact ⟨data, hcopies, hfull⟩
        refine ⟨reported, after, hrest, hleaves.source, fun state hstate ↦ ?_, hleaves.copied,
          hleaves.stops⟩
        obtain hbefore | hholds := hleaves.passed state hstate
        · exact hpassed state hbefore
        · exact .inr hholds

end CopyLoop

/-! ### Copying a file -/

theorem shellhCpFile_of_not_allowed (world : World File)
    (hnot : ¬ CopyAllowed storage outcomes psrc pdest flags world.files) :
    shellhCpFile storage outcomes psrc pdest flags fuel world = some (false, world) := by
  unfold shellhCpFile
  dsimp only
  split_ifs with hnames hconfirms hopens hoverwrites hallocates <;> try rfl
  all_goals
    rw [not_and, Bool.not_eq_false] at hconfirms
    rw [Bool.not_eq_false] at hallocates
    refine absurd ⟨hnames, hconfirms, hopens, fun hforce hprobe hexists ↦ ?_, hallocates⟩ hnot
    by_contra hrefuses
    exact hoverwrites ⟨hforce, ⟨hprobe, hexists⟩, Bool.eq_false_iff.mpr hrefuses⟩

theorem shellhCpFile_of_allowed (world : World File)
    (hallowed : CopyAllowed storage outcomes psrc pdest flags world.files) :
    shellhCpFile storage outcomes psrc pdest flags fuel world =
      if hasFlag flags shellFSimulateOnly then some (true, world)
      else if outcomes.opensDestination = false then some (false, world)
      else copyLoop storage outcomes (storage.resolve psrc) (storage.resolve pdest) fuel 0 0
        (world.become (Function.update world.files (storage.resolve pdest) (some []))) := by
  obtain ⟨hnames, hconfirms, hopens, hoverwrites, hallocates⟩ := hallowed
  unfold shellhCpFile
  dsimp only
  rw [if_neg hnames, if_neg fun hboth ↦ Bool.eq_false_iff.mp hboth.2 (hconfirms hboth.1),
    if_neg (not_not.mpr hopens),
    if_neg fun hall ↦ Bool.eq_false_iff.mp hall.2.2
      (hoverwrites hall.1 hall.2.1.1 hall.2.1.2),
    if_neg (Bool.eq_false_iff.not_left.mpr hallocates)]

/-- The source is removed after the copy exactly if this is done for a move. -/
theorem finishMove_eq (outcomes : Outcomes) (flags : ℕ) (world : World File)
    {contents : List UInt8}
    (hsource : world.files (storage.resolve psrc) = some contents) (copied : Bool) :
    (copied = true ∧ hasFlag flags shellFMove = true ∧ outcomes.unlink = .done) ∧
        finishMove storage outcomes psrc flags (copied, world) =
          (true, world.become (Function.update world.files (storage.resolve psrc) none)) ∨
      ¬ (copied = true ∧ hasFlag flags shellFMove = true ∧ outcomes.unlink = .done) ∧
        ∃ reported, finishMove storage outcomes psrc flags (copied, world) = (reported, world) := by
  unfold finishMove unlinkFile
  dsimp only
  rw [hsource]
  cases copied <;> cases hasFlag flags shellFMove <;> cases outcomes.unlink <;> simp

/-- The loop after the destination is truncated. In every state the source holds what is left to
read, which is nothing if it is the destination. -/
theorem copyOpened_leaves (storage : Storage File) (outcomes : Outcomes) (fdd : File)
    {files : Files File} {fds : File} {contents : List UInt8} (hsource : files fds = some contents)
    (hfuel : contents.length < fuel) :
    ∃ copied middle,
      copyLoop storage outcomes fds fdd fuel 0 0
          ((⟨files, []⟩ : World File).become (Function.update files fdd (some []))) =
        some (copied, middle) ∧
      (∀ state ∈ middle.files :: middle.passed,
        state fds = some (if fds = fdd then [] else contents)) ∧
      (copied = true → ∃ total,
        CopyEnds storage outcomes fds fdd (if fds = fdd then [] else contents) total ∧
        middle.files fdd = some ((if fds = fdd then [] else contents).take total)) ∧
      (copied = false → ∀ total,
        ¬ CopyEnds storage outcomes fds fdd (if fds = fdd then [] else contents) total) := by
  obtain ⟨rest, hrest⟩ : ∃ rest, (if fds = fdd then [] else contents) = rest := ⟨_, rfl⟩
  have hempty : fds = fdd → rest = [] := fun hsame ↦ by rw [← hrest, if_pos hsame]
  have hopened : Function.update files fdd (some []) fds = some rest := by
    by_cases hsame : fds = fdd
    · rw [hempty hsame, hsame, Function.update_self]
    · rw [← hrest, if_neg hsame, Function.update_of_ne hsame, hsource]
  have hlength : rest.length ≤ contents.length := by
    by_cases hsame : fds = fdd
    · rw [hempty hsame]
      exact Nat.zero_le _
    · rw [← hrest, if_neg hsame]
  rw [hrest]
  obtain ⟨copied, middle, hrun, hleaves⟩ := copyLoop_leaves storage outcomes hempty fuel 0
    ((⟨files, []⟩ : World File).become (Function.update files fdd (some []))) hopened
    (by simp [World.become]) (by simp) (by omega) (fun _ hless ↦ absurd hless (Nat.not_lt_zero _))
  rw [Nat.zero_mul] at hrun
  refine ⟨copied, middle, hrun, fun state hstate ↦ ?_, hleaves.copied, hleaves.stops⟩
  obtain rfl | hbefore := List.mem_cons.mp hstate
  · exact hleaves.source
  · obtain hopening | hholds := hleaves.passed state hbefore
    · obtain rfl := List.mem_singleton.mp hopening
      exact hopened
    · exact hholds

section Kept

variable {fds fdd : File} {contents : List UInt8} {middle : World File}

/-- The source goes after the copy: the contents are kept if all of it is in another file. -/
theorem keepsContents_removed_iff {total : ℕ}
    (hpassed : ∀ state ∈ middle.files :: middle.passed,
      state fds = some (if fds = fdd then [] else contents))
    (hcopied : middle.files fdd = some ((if fds = fdd then [] else contents).take total)) :
    KeepsContents fds fdd contents true
        (middle.become (Function.update middle.files fds none)) ↔
      fds ≠ fdd ∧ contents.length ≤ total := by
  have hgone : Function.update middle.files fds none fds = none := Function.update_self ..
  by_cases hsame : fds = fdd
  · refine iff_of_false (fun hkeeps ↦ ?_) (fun hboth ↦ hboth.1 hsame)
    have hholds := hkeeps.1 _ List.mem_cons_self
    rw [← hsame, or_self] at hholds
    exact absurd (hgone.symm.trans hholds) (by simp)
  · simp only [if_neg hsame] at hpassed hcopied
    have hthere : Function.update middle.files fds none fdd = some (contents.take total) :=
      (Function.update_of_ne (Ne.symm hsame) ..).trans hcopied
    constructor
    · intro hkeeps
      refine ⟨hsame, ?_⟩
      obtain hholds | hholds := hkeeps.1 _ List.mem_cons_self
      · exact absurd (hgone.symm.trans hholds) (by simp)
      · exact List.take_eq_self_iff _ |>.mp (Option.some.inj (hthere.symm.trans hholds))
    · rintro ⟨-, hall⟩
      rw [List.take_of_length_le hall] at hthere
      refine ⟨fun state hstate ↦ ?_, fun hfalse ↦ by cases hfalse⟩
      obtain rfl | hbefore := List.mem_cons.mp hstate
      · exact .inr hthere
      · obtain rfl | hearlier := List.mem_cons.mp hbefore
        · exact .inr hthere
        · exact .inl (hpassed state (List.mem_cons_of_mem _ hearlier))

/-- The source stays: the contents are kept if it was not truncated, or empty. -/
theorem keepsContents_stayed_iff (reported : Bool)
    (hpassed : ∀ state ∈ middle.files :: middle.passed,
      state fds = some (if fds = fdd then [] else contents)) :
    KeepsContents fds fdd contents reported middle ↔ (fds = fdd → contents = []) := by
  constructor
  · intro hkeeps hsame
    have hholds := hkeeps.1 _ List.mem_cons_self
    rw [← hsame, or_self, hpassed _ List.mem_cons_self, if_pos hsame] at hholds
    exact (Option.some.inj hholds).symm
  · intro hself
    have hwhole : (if fds = fdd then [] else contents) = contents := by
      by_cases hsame : fds = fdd
      · rw [if_pos hsame, hself hsame]
      · rw [if_neg hsame]
    rw [hwhole] at hpassed
    exact ⟨fun state hstate ↦ .inl (hpassed state hstate), fun _ ↦ hpassed _ List.mem_cons_self⟩

end Kept

/-- Whether a copy that is made keeps the contents of the source. -/
theorem copyAndRemove_keeps_iff {files : Files File} {contents : List UInt8}
    (hsimulate : hasFlag flags shellFSimulateOnly = false)
    (hallowed : CopyAllowed storage outcomes psrc pdest flags files)
    (hopens : outcomes.opensDestination = true)
    (hsource : files (storage.resolve psrc) = some contents) (hfuel : contents.length < fuel) :
    ∃ reported after,
      copyAndRemove storage outcomes psrc pdest flags fuel ⟨files, []⟩ = some (reported, after) ∧
      (KeepsContents (storage.resolve psrc) (storage.resolve pdest) contents reported after ↔
        ¬ CopyLoses storage outcomes psrc pdest flags contents) := by
  obtain ⟨copied, middle, hrun, hpassed, hcopied, hstops⟩ :=
    copyOpened_leaves storage outcomes (storage.resolve pdest) hsource hfuel
  unfold copyAndRemove CopyLoses
  rw [shellhCpFile_of_allowed ⟨files, []⟩ hallowed, if_neg (Bool.eq_false_iff.mp hsimulate),
    if_neg (Bool.eq_false_iff.not_left.mpr hopens), hrun, Option.map_some]
  obtain ⟨⟨rfl, hmove, hunlink⟩, hfinish⟩ | ⟨hstays, reported, hfinish⟩ :=
    finishMove_eq outcomes flags middle (hpassed _ List.mem_cons_self) copied
  · rw [hfinish]
    obtain ⟨total, hends, hthere⟩ := hcopied rfl
    refine ⟨true, _, rfl, (keepsContents_removed_iff hpassed hthere).trans ?_⟩
    constructor
    · rintro ⟨hdiffer, hall⟩ (⟨hself, -⟩ | ⟨-, -, other, hother, hself | hless⟩)
      · exact hdiffer hself
      · exact hdiffer hself
      · obtain rfl := hends.unique hother
        omega
    · intro hcomplete
      refine ⟨fun hsame ↦ hcomplete (.inr ⟨hmove, hunlink, total, hends, .inl hsame⟩), ?_⟩
      by_contra hless
      exact hcomplete (.inr ⟨hmove, hunlink, total, hends, .inr (Nat.lt_of_not_le hless)⟩)
  · rw [hfinish]
    refine ⟨reported, _, rfl, (keepsContents_stayed_iff reported hpassed).trans ?_⟩
    constructor
    · rintro hself (⟨hsame, hnonempty⟩ | ⟨hmove, hunlink, total, hends, -⟩)
      · exact hnonempty (hself hsame)
      · cases copied with
        | true => exact hstays ⟨rfl, hmove, hunlink⟩
        | false => exact hstops rfl total hends
    · intro hcomplete hsame
      by_contra hnonempty
      exact hcomplete (.inl ⟨hsame, hnonempty⟩)

/-- A simulated copy changes nothing, unless it is made for a move and the source is removed. -/
theorem copyAndRemove_simulated (outcomes : Outcomes) (pdest : CString) (fuel : ℕ)
    {files : Files File}
    (hsimulate : hasFlag flags shellFSimulateOnly = true)
    (hexists : (files (storage.resolve psrc)).isSome = true) :
    ∃ reported after,
      copyAndRemove storage outcomes psrc pdest flags fuel ⟨files, []⟩ = some (reported, after) ∧
      ((∀ state ∈ after.files :: after.passed, state = files) ↔
        ¬ (hasFlag flags shellFMove = true ∧ outcomes.unlink = .done ∧
          CopyAllowed storage outcomes psrc pdest flags files)) := by
  obtain ⟨contents, hsource⟩ := Option.isSome_iff_exists.mp hexists
  unfold copyAndRemove
  by_cases hallowed : CopyAllowed storage outcomes psrc pdest flags files
  · rw [shellhCpFile_of_allowed ⟨files, []⟩ hallowed, if_pos hsimulate, Option.map_some]
    obtain ⟨⟨-, hmove, hunlink⟩, hfinish⟩ | ⟨hstays, reported, hfinish⟩ :=
      finishMove_eq outcomes flags ⟨files, []⟩ hsource true
    · rw [hfinish]
      refine ⟨true, _, rfl, iff_of_false (fun hsame ↦ ?_) (not_not.mpr ⟨hmove, hunlink, hallowed⟩)⟩
      have hgone := congrFun (hsame _ List.mem_cons_self) (storage.resolve psrc)
      rw [hsource] at hgone
      exact absurd ((Function.update_self ..).symm.trans hgone) (by simp)
    · rw [hfinish]
      exact ⟨reported, _, rfl, iff_of_true (fun state hstate ↦ List.mem_singleton.mp hstate)
        fun hall ↦ hstays ⟨rfl, hall.1, hall.2.1⟩⟩
  · rw [shellhCpFile_of_not_allowed ⟨files, []⟩ hallowed, Option.map_some]
    exact ⟨false, _, rfl, iff_of_true (fun state hstate ↦ List.mem_singleton.mp hstate)
      fun hall ↦ hallowed hall.2.2⟩

/-- Any other copy, made or not. -/
theorem copyAndRemove_real (outcomes : Outcomes) (pdest : CString) {files : Files File}
    {contents : List UInt8}
    (hsimulate : hasFlag flags shellFSimulateOnly = false)
    (hsource : files (storage.resolve psrc) = some contents) (hfuel : contents.length < fuel) :
    ∃ reported after,
      copyAndRemove storage outcomes psrc pdest flags fuel ⟨files, []⟩ = some (reported, after) ∧
      (KeepsContents (storage.resolve psrc) (storage.resolve pdest) contents reported after ↔
        ¬ (CopyAllowed storage outcomes psrc pdest flags files ∧ outcomes.opensDestination = true ∧
          CopyLoses storage outcomes psrc pdest flags contents)) := by
  by_cases hcopies : CopyAllowed storage outcomes psrc pdest flags files ∧
      outcomes.opensDestination = true
  · obtain ⟨hallowed, hopens⟩ := hcopies
    obtain ⟨reported, after, hrun, hkeeps⟩ :=
      copyAndRemove_keeps_iff hsimulate hallowed hopens hsource hfuel
    exact ⟨reported, after, hrun, hkeeps.trans
      (not_congr ⟨fun hloses ↦ ⟨hallowed, hopens, hloses⟩, fun hall ↦ hall.2.2⟩)⟩
  · have hrun : copyAndRemove storage outcomes psrc pdest flags fuel ⟨files, []⟩ =
        some (false, ⟨files, []⟩) := by
      unfold copyAndRemove
      by_cases hallowed : CopyAllowed storage outcomes psrc pdest flags files
      · rw [shellhCpFile_of_allowed ⟨files, []⟩ hallowed,
          if_neg (Bool.eq_false_iff.mp hsimulate),
          if_pos (Bool.eq_false_iff.mpr fun hopens ↦ hcopies ⟨hallowed, hopens⟩)]
        rfl
      · rw [shellhCpFile_of_not_allowed ⟨files, []⟩ hallowed]
        rfl
    exact ⟨false, ⟨files, []⟩, hrun, iff_of_true
      ⟨fun state hstate ↦ .inl (List.mem_singleton.mp hstate ▸ hsource), fun _ ↦ hsource⟩
      fun hall ↦ hcopies ⟨hall.1, hall.2.1⟩⟩

/-! ### The operation -/

/-- The operation copies, if it is no move or `rename` fails with `EXDEV`. -/
theorem shellhCpOrMvFile_copies {world : World File}
    (hcopies : hasFlag flags shellFMove = true → outcomes.rename = .exdev) :
    shellhCpOrMvFile storage outcomes psrc pdest flags fuel world =
      copyAndRemove storage outcomes psrc pdest flags fuel world := by
  unfold shellhCpOrMvFile
  by_cases hmove : hasFlag flags shellFMove = true
  · rw [if_pos hmove, hcopies hmove]
    rfl
  · rw [if_neg hmove]

/-- Nothing is done about a source that does not exist. -/
theorem shellhCpOrMvFile_missing (outcomes : Outcomes) (pdest : CString) (flags fuel : ℕ)
    {files : Files File}
    (hmissing : files (storage.resolve psrc) = none) :
    ∃ reported, shellhCpOrMvFile storage outcomes psrc pdest flags fuel ⟨files, []⟩ =
      some (reported, ⟨files, []⟩) := by
  by_cases hcopies : hasFlag flags shellFMove = true → outcomes.rename = .exdev
  · rw [shellhCpOrMvFile_copies hcopies]
    unfold copyAndRemove
    have hnot : ¬ CopyAllowed storage outcomes psrc pdest flags files := fun hallowed ↦ by
      have hexists := hallowed.opens.2
      rw [hmissing] at hexists
      cases hexists
    rw [shellhCpFile_of_not_allowed ⟨files, []⟩ hnot]
    exact ⟨false, rfl⟩
  · obtain ⟨hmove, hrename⟩ := Classical.not_imp.mp hcopies
    unfold shellhCpOrMvFile renameFile
    rw [if_pos hmove]
    dsimp only
    rw [hmissing]
    cases houtcome : outcomes.rename with
    | exdev => exact absurd houtcome hrename
    | _ => exact ⟨_, rfl⟩

/-- Otherwise the file is moved, or nothing changes. -/
theorem shellhCpOrMvFile_renames (pdest : CString) (fuel : ℕ) {files : Files File}
    {contents : List UInt8}
    (hsource : files (storage.resolve psrc) = some contents)
    (hmove : hasFlag flags shellFMove = true) (hrename : outcomes.rename ≠ .exdev) :
    outcomes.rename = .done ∧ storage.resolve psrc ≠ storage.resolve pdest ∧
        shellhCpOrMvFile storage outcomes psrc pdest flags fuel ⟨files, []⟩ =
          some (true, (⟨files, []⟩ : World File).become (Function.update
            (Function.update files (storage.resolve pdest) (some contents))
              (storage.resolve psrc) none)) ∨
      ¬ (outcomes.rename = .done ∧ storage.resolve psrc ≠ storage.resolve pdest) ∧
        ∃ reported, shellhCpOrMvFile storage outcomes psrc pdest flags fuel ⟨files, []⟩ =
          some (reported, ⟨files, []⟩) := by
  unfold shellhCpOrMvFile renameFile
  rw [if_pos hmove]
  dsimp only
  rw [hsource]
  cases houtcome : outcomes.rename with
  | exdev => exact absurd houtcome hrename
  | failed => simp
  | code => simp
  | done =>
    dsimp only
    by_cases hsame : storage.resolve psrc = storage.resolve pdest
    · rw [if_pos hsame]
      exact .inr ⟨fun hboth ↦ hboth.2 hsame, true, rfl⟩
    · rw [if_neg hsame]
      exact .inl ⟨rfl, hsame, rfl⟩

/-- For all files, paths, flags and outcomes of the calls: the operation comes to an end, and it
keeps the only copy exactly if none of the three cases is met. -/
theorem keepsOnlyCopy_iff (storage : Storage File) (outcomes : Outcomes) (psrc pdest : CString)
    (flags fuel : ℕ) (files : Files File)
    (hfuel : ∀ contents, files (storage.resolve psrc) = some contents → contents.length < fuel) :
    ∃ reported after,
      shellhCpOrMvFile storage outcomes psrc pdest flags fuel ⟨files, []⟩ =
        some (reported, after) ∧
      (KeepsOnlyCopy storage psrc pdest flags files reported after ↔
        ¬ Destroys storage outcomes psrc pdest flags files) := by
  unfold KeepsOnlyCopy Destroys SimulationChanges
  cases hsource : files (storage.resolve psrc) with
  | none =>
    obtain ⟨reported, hrun⟩ := shellhCpOrMvFile_missing outcomes pdest flags fuel hsource
    refine ⟨reported, _, hrun, ?_⟩
    cases hsimulate : hasFlag flags shellFSimulateOnly <;> simp
  | some contents =>
    cases hsimulate : hasFlag flags shellFSimulateOnly with
    | true =>
      simp only [if_true, Option.isSome_some, true_and]
      by_cases hcopies : hasFlag flags shellFMove = true → outcomes.rename = .exdev
      · rw [shellhCpOrMvFile_copies hcopies]
        obtain ⟨reported, after, hrun, hsame⟩ := copyAndRemove_simulated outcomes pdest fuel
          hsimulate (Option.isSome_iff_exists.mpr ⟨_, hsource⟩)
        refine ⟨reported, after, hrun, hsame.trans (not_congr ?_)⟩
        constructor
        · rintro ⟨hmove, hunlink, hallowed⟩
          exact ⟨hmove, .inr ⟨hcopies hmove, hunlink, hallowed⟩⟩
        · rintro ⟨hmove, ⟨hdone, -⟩ | ⟨-, hunlink, hallowed⟩⟩
          · rw [hcopies hmove] at hdone
            cases hdone
          · exact ⟨hmove, hunlink, hallowed⟩
      · obtain ⟨hmove, hrename⟩ := Classical.not_imp.mp hcopies
        obtain ⟨hdone, hdiffer, hrun⟩ | ⟨hstays, reported, hrun⟩ := shellhCpOrMvFile_renames
          pdest fuel hsource hmove hrename
        · refine ⟨true, _, hrun, iff_of_false (fun hsame ↦ ?_)
            (not_not.mpr ⟨hmove, .inl ⟨hdone, hdiffer⟩⟩)⟩
          have hgone := congrFun (hsame _ List.mem_cons_self) (storage.resolve psrc)
          rw [hsource] at hgone
          exact absurd ((Function.update_self ..).symm.trans hgone) (by simp)
        · refine ⟨reported, _, hrun, iff_of_true
            (fun state hstate ↦ List.mem_singleton.mp hstate) ?_⟩
          rintro ⟨-, hboth | hcrossing⟩
          · exact hstays hboth
          · exact hrename hcrossing.1
    | false =>
      simp only [Bool.false_eq_true, if_false, Option.some.injEq, forall_eq', exists_eq_left']
      by_cases hcopies : hasFlag flags shellFMove = true → outcomes.rename = .exdev
      · rw [shellhCpOrMvFile_copies hcopies]
        obtain ⟨reported, after, hrun, hkeeps⟩ := copyAndRemove_real outcomes pdest
          hsimulate hsource (hfuel contents hsource)
        exact ⟨reported, after, hrun, hkeeps.trans
          (not_congr ⟨fun hloses ↦ ⟨hcopies, hloses⟩, fun hall ↦ hall.2⟩)⟩
      · obtain ⟨hmove, hrename⟩ := Classical.not_imp.mp hcopies
        obtain ⟨hdone, hdiffer, hrun⟩ | ⟨hstays, reported, hrun⟩ := shellhCpOrMvFile_renames
          pdest fuel hsource hmove hrename
        · refine ⟨true, _, hrun, iff_of_true ⟨fun state hstate ↦ .inr ?_,
            fun hfalse ↦ by cases hfalse⟩ fun hall ↦ hcopies hall.1⟩
          have hmoved : state = Function.update (Function.update files (storage.resolve pdest)
              (some contents)) (storage.resolve psrc) none := by
            obtain rfl | hpassed := List.mem_cons.mp hstate
            · rfl
            · exact List.mem_singleton.mp hpassed
          rw [hmoved, Function.update_of_ne (Ne.symm hdiffer), Function.update_self]
        · exact ⟨reported, _, hrun, iff_of_true
            ⟨fun state hstate ↦ .inl (List.mem_singleton.mp hstate ▸ hsource), fun _ ↦ hsource⟩
            fun hall ↦ hcopies hall.1⟩

/-! ### A simulated move to another device -/

/-- `/mmc/a`. -/
def mmcName : CString := ⟨[47, 109, 109, 99, 47, 97], by decide⟩

/-- `/rfs/a`. -/
def rfsName : CString := ⟨[47, 114, 102, 115, 47, 97], by decide⟩

/-- A card with the file 0, and the remote file system with the file 1. -/
def twoDevices : Storage ℕ where
  resolve := fun name ↦ if name = mmcName then 0 else 1
  build := some ⟨9, eluarpcWriteRequestExtra_lt⟩
  remote := fun file ↦ decide (file = 1)

/-- All calls succeed, but `rename` does not work between devices. -/
def crossingOutcomes : Outcomes where
  confirmsCopy := true
  opensSource := true
  opensProbe := true
  confirmsOverwrite := true
  allocates := true
  opensDestination := true
  read := fun _ _ ↦ some 512
  write := fun _ _ ↦ ⟨false, 512⟩
  rename := .exdev
  unlink := .done

/-- There is one byte in the file on the card, and no other file. -/
def oneFile : Files ℕ := fun file ↦ if file = 0 then some [7] else none

theorem keepsOnlyCopy_iff_crossing :
    ∃ reported after,
      shellhCpOrMvFile twoDevices crossingOutcomes mmcName rfsName shellFMove 2 ⟨oneFile, []⟩ =
        some (reported, after) ∧
      (KeepsOnlyCopy twoDevices mmcName rfsName shellFMove oneFile reported after ↔
        ¬ Destroys twoDevices crossingOutcomes mmcName rfsName shellFMove oneFile) :=
  keepsOnlyCopy_iff twoDevices crossingOutcomes mmcName rfsName shellFMove 2 oneFile
    fun contents hcontents ↦ by
      obtain rfl : [7] = contents := Option.some.inj hcontents
      decide

/-- `mv -s /mmc/a /rfs/a` reports success, and neither file exists afterwards. -/
theorem simulated_move_removes :
    ∃ after, shellhCpOrMvFile twoDevices crossingOutcomes mmcName rfsName
        (shellFSimulateOnly ||| shellFMove) 2 ⟨oneFile, []⟩ = some (true, after) ∧
      after.files 0 = none ∧ after.files 1 = none ∧
      ¬ KeepsOnlyCopy twoDevices mmcName rfsName (shellFSimulateOnly ||| shellFMove) oneFile true
        after := by
  refine ⟨_, rfl, rfl, rfl, fun hkeeps ↦ ?_⟩
  unfold KeepsOnlyCopy at hkeeps
  rw [if_pos (by decide)] at hkeeps
  exact absurd (congrFun (hkeeps _ List.mem_cons_self) 0) (by decide)

end Elua.Shell
