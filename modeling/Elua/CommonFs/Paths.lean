import Elua.CommonFs.PatternMatches
import Mathlib.Data.List.DropRight

/-!
# Paths

`cmnFsPathJoin` joins elements with one slash between two of them, and `cmnFsSplitPath` takes a path
apart into a directory and a pattern.

A name without slashes that is joined to a path stands behind `base`, the path with a slash at its
end (`joined_name`), so the first name below a path can be read from every path further below
(`firstName_of_prefix`).
-/

set_option autoImplicit false
set_option relaxedAutoImplicit false

namespace Elua.CommonFs

/-- A path or a name, without the terminating zero. -/
abbrev Path := List UInt8

/-- `'/'`. -/
def slash : UInt8 := 47

/-- `firstchar`. -/
def firstchar (s : Path) : UInt8 := s.headD 0

/-- `lastchar`. -/
def lastchar (s : Path) : UInt8 := s.getLastD 0

/-! ### Joining -/

/-- A slash is written behind a path if there is none. -/
def withSlash (res : Path) : Path := if lastchar res = slash then res else res ++ [slash]

/-- One turn of the loop of `cmn_fs_path_join` that writes an element. -/
def appendElement (res tmp : Path) : Path :=
  if tmp = [] then res
  else withSlash (res ++ if firstchar tmp = slash then tmp.tail else tmp)

/-- What `cmn_fs_path_join` writes. The slash at the end is removed. -/
def joined (elements : List Path) : Path := (elements.foldl appendElement [slash]).dropLast

/-- The length that `cmn_fs_path_join` counts for an element. -/
def elementLength (tmp : Path) : ℕ :=
  if tmp = [] then 0
  else tmp.length + (if lastchar tmp = slash then 0 else 1) - if firstchar tmp = slash then 1 else 0

/-- `cmn_fs_path_join`. There is no path without elements, or without memory. -/
def cmnFsPathJoin (allocates : Path → Bool) (elements : List Path) : Option Path :=
  if elements.foldl (fun total tmp ↦ total + elementLength tmp) 0 = 0 ∨
      allocates (joined elements) = false then none
  else some (joined elements)

theorem eq_joined {allocates : Path → Bool} {elements : List Path} {path : Path}
    (hjoin : cmnFsPathJoin allocates elements = some path) : path = joined elements := by
  unfold cmnFsPathJoin at hjoin
  split_ifs at hjoin
  exact (Option.some.inj hjoin).symm

/-- A path with a slash at its end: what stands in front of the names in a directory. -/
def base (path : Path) : Path := appendElement [slash] path

/-- The first name of a path below another. -/
def firstName (path below : Path) : Path := (below.drop (base path).length).takeWhile (· ≠ slash)

/-- A name in a directory. -/
def IsName (name : Path) : Prop := name ≠ [] ∧ slash ∉ name

theorem lastchar_append_name {name : Path} (hname : IsName name) (path : Path) :
    lastchar (path ++ name) ≠ slash := by
  unfold lastchar
  rw [List.getLastD_eq_getLast?, List.getLast?_append_of_ne_nil _ hname.1,
    List.getLast?_eq_some_getLast hname.1]
  exact fun hlast ↦ hname.2 (hlast ▸ List.getLast_mem hname.1)

theorem firstchar_name {name : Path} (hname : IsName name) : firstchar name ≠ slash := by
  obtain ⟨hne, hslash⟩ := hname
  cases name with
  | nil => exact absurd rfl hne
  | cons c name => exact (List.ne_of_not_mem_cons hslash).symm

theorem withSlash_append_name {name : Path} (hname : IsName name) (path : Path) :
    withSlash (path ++ name) = path ++ name ++ [slash] :=
  if_neg (lastchar_append_name hname path)

theorem prefix_withSlash (res : Path) : res <+: withSlash res := by
  unfold withSlash
  split_ifs
  · exact List.prefix_rfl
  · exact List.prefix_append res [slash]

theorem appendElement_name {name : Path} (hname : IsName name) (res : Path) :
    appendElement res name = res ++ name ++ [slash] := by
  unfold appendElement
  rw [if_neg hname.1, if_neg (firstchar_name hname), withSlash_append_name hname]

/-- A name that is joined to a path. -/
theorem joined_name {name : Path} (hname : IsName name) (path : Path) :
    joined [path, name] = base path ++ name := by
  unfold joined base
  rw [List.foldl_cons, List.foldl_cons, List.foldl_nil, appendElement_name hname,
    List.dropLast_concat]

/-- The path in front of a slash, with a slash in front of it. -/
theorem base_cons_slash (path : Path) : base (slash :: path) = withSlash (slash :: path) := by
  unfold base appendElement
  rw [if_neg (List.cons_ne_nil _ _), if_pos (show firstchar (slash :: path) = slash from rfl)]
  rfl

theorem exists_base_eq_cons (path : Path) :
    ∃ rest, base path = slash :: rest ∧ path.length ≤ rest.length + 1 := by
  have hwritten : ∀ tail : Path, path.length ≤ tail.length + 1 →
      ∃ rest, withSlash (slash :: tail) = slash :: rest ∧ path.length ≤ rest.length + 1 := by
    intro tail hlength
    obtain ⟨last, hlast⟩ := prefix_withSlash (slash :: tail)
    refine ⟨tail ++ last, hlast.symm, ?_⟩
    rw [List.length_append]
    omega
  unfold base appendElement
  split_ifs with hempty
  · rw [hempty]
    exact ⟨[], rfl, Nat.zero_le _⟩
  · refine hwritten path.tail ?_
    rw [List.length_tail]
    omega
  · exact hwritten path (Nat.le_succ _)

/-- A name that was joined has a slash behind it in front of the names below. -/
theorem base_append_name {name : Path} (hname : IsName name) (path : Path) :
    base (base path ++ name) = base path ++ name ++ [slash] := by
  obtain ⟨rest, hbase, -⟩ := exists_base_eq_cons path
  rw [hbase, List.cons_append, base_cons_slash, ← List.cons_append, withSlash_append_name hname]

theorem length_lt_of_name {name : Path} (hname : IsName name) (path : Path) :
    path.length < (base path ++ name).length := by
  obtain ⟨rest, hbase, hlength⟩ := exists_base_eq_cons path
  have hpos := List.length_pos_iff.mpr hname.1
  rw [hbase, List.length_append, List.length_cons]
  omega

/-- The first name of a path that begins with a name. -/
theorem firstName_name {name : Path} (hname : IsName name) (path : Path) :
    firstName path (base path ++ name) = name := by
  unfold firstName
  rw [List.drop_left, List.takeWhile_eq_self_iff]
  exact fun c hmem ↦ decide_eq_true fun heq ↦ hname.2 (heq ▸ hmem)

theorem firstName_of_prefix {name below : Path} (hname : IsName name) {path : Path}
    (hbelow : base path ++ name ++ [slash] <+: below) : firstName path below = name := by
  obtain ⟨rest, rfl⟩ := hbelow
  have hslash : ∀ c ∈ name, decide (c ≠ slash) = true := fun c hmem ↦
    decide_eq_true fun heq ↦ hname.2 (heq ▸ hmem)
  unfold firstName
  rw [List.append_assoc, List.append_assoc, List.drop_left, List.takeWhile_append_of_pos hslash,
    List.singleton_append, List.takeWhile_cons_of_neg (by decide), List.append_nil]

/-! ### Splitting -/

/-- `"*"`. -/
def allMask : Path := [star]

/-- `strrchr( path, '/' ) + 1`. -/
def maskIn (path : Path) : Path := path.rtakeWhile (· ≠ slash)

/-- `cmn_fs_split_path`, of a path that is not null: the directory and the mask. The directory is
copied, for which there may be no memory. -/
def cmnFsSplitPath (opensFile : Path → Bool) (duplicates : Bool) (path : Path) :
    Option (Path × Path) :=
  if path.length < 2 ∨ firstchar path ≠ slash then none
  else
    let (dir, mask) :=
      if slash ∉ path.tail then (path, allMask)
      else if lastchar path = slash then (path.dropLast, allMask)
      else
        let mask := maskIn path
        let dir := path.take (path.length - mask.length - 1)
        if star ∈ path ∨ question ∈ path ∨ opensFile path = true then (dir, mask)
        else (path, allMask)
    if duplicates then some (dir, mask) else none

end Elua.CommonFs
