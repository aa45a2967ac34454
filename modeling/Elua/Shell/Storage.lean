import Elua.Foundation.CString
import Mathlib.Algebra.Group.Nat.Defs

/-!
# The files under the shell

What the paths of the shell name, the contents of the files, and the calls that the shell makes on
them: `open` for writing, `read`, `write`, `rename` and `unlink`. What a call does, as far as the
code does not decide it, is an outcome. Files of the remote file system are read by `rfs_read_r` and
written by `rfs_write_r`, which pass on counts where the client reports errors.

A `World` records the states that it has passed, so that a property can speak about all of them.
-/

set_option autoImplicit false
set_option relaxedAutoImplicit false

namespace Elua.Shell

open Foundation

/-! ### Paths and files -/

/-- `ELUARPC_WRITE_REQUEST_EXTRA`. -/
def eluarpcWriteRequestExtra : ℕ := 29

/-- A build with the remote file system: `RFS_BUFFER_SIZE`, such that there is room for data. -/
structure RfsBuild where
  rfsBufferSize : ℕ
  fits : eluarpcWriteRequestExtra < 2 ^ rfsBufferSize

/-- A buffer of 512 bytes has room for the rest of a request. -/
theorem eluarpcWriteRequestExtra_lt : eluarpcWriteRequestExtra < 2 ^ 9 := by decide

/-- `RFS_REAL_BUFFER_SIZE`. -/
def RfsBuild.realBufferSize (build : RfsBuild) : ℕ :=
  2 ^ build.rfsBufferSize - eluarpcWriteRequestExtra

theorem RfsBuild.realBufferSize_pos (build : RfsBuild) : 0 < build.realBufferSize :=
  Nat.sub_pos_of_lt build.fits

/-- What paths name, the remote file system if it is built, and which files are on it. Several paths
may name one file. -/
structure Storage (File : Type) where
  resolve : CString → File
  build : Option RfsBuild
  remote : File → Bool

/-- The remote file system, for a file that is on it. -/
def Storage.onRfs {File : Type} (storage : Storage File) (file : File) : Option RfsBuild :=
  if storage.remote file then storage.build else none

/-- `SHELL_COPY_BUFSIZE`. -/
def Storage.copyBufsize {File : Type} (storage : Storage File) : ℕ :=
  match storage.build with
  | some build => build.realBufferSize
  | none => 256

theorem Storage.copyBufsize_pos {File : Type} (storage : Storage File) :
    0 < storage.copyBufsize := by
  unfold Storage.copyBufsize
  cases storage.build with
  | some build => exact build.realBufferSize_pos
  | none => decide

/-- The contents of the files that exist. -/
abbrev Files (File : Type) : Type := File → Option (List UInt8)

/-- The files, and the states that they have been in since the start. -/
structure World (File : Type) where
  files : Files File
  passed : List (Files File)

/-- A change of the files. -/
def World.become {File : Type} (world : World File) (files : Files File) : World File where
  files := files
  passed := files :: world.passed

/-! ### Outcomes -/

/-- What comes of a write: whether it is reported as failed, and how many bytes are stored. -/
structure WriteOutcome where
  failed : Bool
  accepted : ℕ

/-- What comes of `rename` or `unlink`: it is done, it fails with `EXDEV` or with another error, or
it returns a code that is neither zero nor `-1`. -/
inductive NameOutcome
  | done | exdev | failed | code
  deriving DecidableEq, Repr

/-- What comes of the calls of one operation of the shell. Reads and writes are given for each turn
of the loop, and within a turn for each request to the remote file system. -/
structure Outcomes where
  confirmsCopy : Bool
  opensSource : Bool
  opensProbe : Bool
  confirmsOverwrite : Bool
  allocates : Bool
  opensDestination : Bool
  read : ℕ → ℕ → Option ℕ
  write : ℕ → ℕ → WriteOutcome
  rename : NameOutcome
  unlink : NameOutcome

/-! ### Reading -/

/-- `rfs_read_r`: what it stores of the rest of a file, which is as long as the count it returns. -/
def rfsReadR (build : RfsBuild) (outcome : ℕ → Option ℕ) (rest : List UInt8) (len call : ℕ) :
    List UInt8 :=
  if len = 0 then []
  else
    let toread := if build.realBufferSize < len then build.realBufferSize else len
    match outcome call with
    | none => []
    | some available =>
      let data := rest.take (min available toread)
      if data.length < toread then data
      else data ++ rfsReadR build outcome (rest.drop toread) (len - toread) (call + 1)
termination_by len
decreasing_by
  have hreal := build.realBufferSize_pos
  split_ifs <;> omega

/-- `read`: an error, or the bytes that it returns of the rest of a file. -/
def readFile (onRfs : Option RfsBuild) (outcome : ℕ → Option ℕ) (rest : List UInt8) (len : ℕ) :
    Option (List UInt8) :=
  match onRfs with
  | some build => some (rfsReadR build outcome rest len 0)
  | none => (outcome 0).map fun available ↦ rest.take (min available len)

/-- What begins the rest after some bytes begins the whole after these. -/
theorem take_append_prefix {data part : List UInt8} {count : ℕ} (hpart : part <+: data.drop count) :
    data.take count ++ part <+: data := by
  obtain ⟨more, hmore⟩ := hpart
  exact ⟨more, by rw [List.append_assoc, hmore, List.take_append_drop]⟩

theorem rfsReadR_begins (build : RfsBuild) (outcome : ℕ → Option ℕ) (rest : List UInt8)
    (len call : ℕ) :
    rfsReadR build outcome rest len call <+: rest ∧
      (rfsReadR build outcome rest len call).length ≤ len := by
  induction len using Nat.strong_induction_on generalizing rest call with
  | _ len ih =>
    rw [rfsReadR]
    by_cases hzero : len = 0
    · rw [if_pos hzero]
      exact ⟨List.nil_prefix, Nat.zero_le _⟩
    rw [if_neg hzero]
    have hreal := build.realBufferSize_pos
    generalize htoread : (if build.realBufferSize < len then build.realBufferSize else len) = toread
    have hbound : 0 < toread ∧ toread ≤ len := by split_ifs at htoread <;> omega
    dsimp only
    cases outcome call with
    | none => exact ⟨List.nil_prefix, Nat.zero_le _⟩
    | some available =>
      dsimp only
      by_cases hshort : (rest.take (min available toread)).length < toread
      · rw [if_pos hshort]
        exact ⟨List.take_prefix _ _, by omega⟩
      · rw [if_neg hshort]
        have htaken : (rest.take (min available toread)).length = toread := by
          rw [List.length_take] at hshort ⊢
          omega
        have hall : rest.take (min available toread) = rest.take toread := by
          rw [List.length_take] at htaken
          rw [show min available toread = toread by omega]
        obtain ⟨hbegins, hlength⟩ := ih (len - toread) (by omega) (rest.drop toread) (call + 1)
        constructor
        · rw [hall]
          exact take_append_prefix hbegins
        · rw [List.length_append, htaken]
          omega

/-- What is read depends on the requests that are made. -/
theorem rfsReadR_congr (build : RfsBuild) {outcome other : ℕ → Option ℕ} {call : ℕ}
    (hsame : ∀ request, call ≤ request → outcome request = other request) (rest : List UInt8)
    (len : ℕ) : rfsReadR build outcome rest len call = rfsReadR build other rest len call := by
  induction len using Nat.strong_induction_on generalizing rest call with
  | _ len ih =>
    rw [rfsReadR, rfsReadR.eq_1 build other, hsame call le_rfl]
    split_ifs with hzero
    · rfl
    · have hreal := build.realBufferSize_pos
      have hnext (toread : ℕ) (hpos : 0 < toread) :=
        ih (len - toread) (by omega)
          (fun request hle ↦ hsame request (Nat.le_of_succ_le hle)) (rest.drop toread)
      simp only [hnext _ hreal]
    · have hnext (toread : ℕ) (hpos : 0 < toread) :=
        ih (len - toread) (by omega)
          (fun request hle ↦ hsame request (Nat.le_of_succ_le hle)) (rest.drop toread)
      simp only [hnext _ (Nat.pos_of_ne_zero hzero)]

/-- What is read comes from the rest of the file, and fits the buffer. -/
theorem readFile_begins {onRfs : Option RfsBuild} {outcome : ℕ → Option ℕ} {rest data : List UInt8}
    {len : ℕ} (hread : readFile onRfs outcome rest len = some data) :
    data <+: rest ∧ data.length ≤ len := by
  unfold readFile at hread
  cases onRfs with
  | some build =>
    obtain rfl := Option.some.inj hread
    exact rfsReadR_begins build outcome rest len 0
  | none =>
    obtain ⟨available, -, rfl⟩ := Option.map_eq_some_iff.mp hread
    refine ⟨List.take_prefix _ _, ?_⟩
    rw [List.length_take]
    omega

/-! ### Writing -/

/-- `rfs_write_r`: the count that it returns, and what is stored. -/
def rfsWriteR (build : RfsBuild) (outcome : ℕ → WriteOutcome) (data : List UInt8) (call : ℕ) :
    ℕ × List UInt8 :=
  if data.length = 0 then (0, [])
  else
    let chunk := data.take build.realBufferSize
    let stored := chunk.take (outcome call).accepted
    if (outcome call).failed then (0, stored)
    else if stored.length < chunk.length then (stored.length, stored)
    else
      let (count, more) := rfsWriteR build outcome (data.drop build.realBufferSize) (call + 1)
      (stored.length + count, stored ++ more)
termination_by data.length
decreasing_by
  have hreal := build.realBufferSize_pos
  rw [List.length_drop]
  omega

/-- `write`: an error or the count that it returns, and what is stored. -/
def writeFile (onRfs : Option RfsBuild) (outcome : ℕ → WriteOutcome) (data : List UInt8) :
    Option ℕ × List UInt8 :=
  match onRfs with
  | some build =>
    let (count, stored) := rfsWriteR build outcome data 0
    (some count, stored)
  | none =>
    let stored := data.take (outcome 0).accepted
    (if (outcome 0).failed then none else some stored.length, stored)

theorem rfsWriteR_spec (build : RfsBuild) (outcome : ℕ → WriteOutcome) (data : List UInt8)
    (call : ℕ) :
    (rfsWriteR build outcome data call).2 <+: data ∧
      (rfsWriteR build outcome data call).1 ≤ (rfsWriteR build outcome data call).2.length := by
  induction hlength : data.length using Nat.strong_induction_on generalizing data call with
  | _ length ih =>
    rw [rfsWriteR]
    by_cases hdata : data.length = 0
    · rw [if_pos hdata]
      exact ⟨List.nil_prefix, Nat.le_refl _⟩
    rw [if_neg hdata]
    have hreal := build.realBufferSize_pos
    dsimp only
    have hchunk := List.take_prefix build.realBufferSize data
    have hstored := List.take_prefix (outcome call).accepted (data.take build.realBufferSize)
    split_ifs with hfailed hshort
    · exact ⟨hstored.trans hchunk, Nat.zero_le _⟩
    · exact ⟨hstored.trans hchunk, Nat.le_refl _⟩
    · have hall := hstored.eq_of_length
        (Nat.le_antisymm hstored.length_le (Nat.le_of_not_lt hshort))
      obtain ⟨hbegins, hcount⟩ := ih (data.drop build.realBufferSize).length
        (by rw [List.length_drop]; omega) (data.drop build.realBufferSize) (call + 1) rfl
      rw [hall]
      constructor
      · exact take_append_prefix hbegins
      · rw [List.length_append]
        omega

theorem rfsWriteR_congr (build : RfsBuild) {outcome other : ℕ → WriteOutcome} {call : ℕ}
    (hsame : ∀ request, call ≤ request → outcome request = other request) (data : List UInt8) :
    rfsWriteR build outcome data call = rfsWriteR build other data call := by
  induction hlength : data.length using Nat.strong_induction_on generalizing data call with
  | _ length ih =>
    rw [rfsWriteR, rfsWriteR.eq_1 build other, hsame call le_rfl]
    split_ifs with hempty
    · rfl
    · rfl
    · have hreal := build.realBufferSize_pos
      rw [ih (data.drop build.realBufferSize).length (by rw [List.length_drop]; omega)
        (fun request hle ↦ hsame request (Nat.le_of_succ_le hle)) _ rfl]

/-- What is stored is a part of the data from its start on, and all of it if the count says so. -/
theorem writeFile_spec (onRfs : Option RfsBuild) (outcome : ℕ → WriteOutcome) (data : List UInt8) :
    (writeFile onRfs outcome data).2 <+: data ∧
      ∀ count, (writeFile onRfs outcome data).1 = some count →
        count ≤ (writeFile onRfs outcome data).2.length := by
  unfold writeFile
  cases onRfs with
  | some build =>
    obtain ⟨hbegins, hcount⟩ := rfsWriteR_spec build outcome data 0
    exact ⟨hbegins, fun count heq ↦ Option.some.inj heq ▸ hcount⟩
  | none =>
    refine ⟨List.take_prefix _ _, fun count heq ↦ ?_⟩
    dsimp only at heq ⊢
    split_ifs at heq
    obtain rfl := Option.some.inj heq
    exact Nat.le_refl _

theorem stored_eq_of_count {onRfs : Option RfsBuild} {outcome : ℕ → WriteOutcome}
    {data : List UInt8} {count : ℕ} (hwrite : (writeFile onRfs outcome data).1 = some count)
    (hfull : ¬ count < data.length) : (writeFile onRfs outcome data).2 = data := by
  obtain ⟨hbegins, hcount⟩ := writeFile_spec onRfs outcome data
  have hlength := hcount count hwrite
  exact hbegins.eq_of_length (Nat.le_antisymm hbegins.length_le (by omega))

end Elua.Shell
