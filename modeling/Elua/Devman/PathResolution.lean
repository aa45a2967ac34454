import Elua.Devman.Registry
import Mathlib.Data.Option.Basic

/-!
# When the two path resolvers agree

`DevicePath` is a path with a first component and something behind it. On such a path `findDmEntry`
returns the device named like the first component (`findDmEntry_path`), and `dmDeviceIdFromName` the
device with the longest name that begins the path (`dmDeviceIdFromName_ok`), which may end inside a
component or reach beyond the first one.

`resolvesAlike_iff` says exactly when they select the same device: when every registered name that
begins the path is the first component, or is shorter while the first component is registered too.
A device whose name is the beginning of another word is enough to tell them apart
(`shorter_name_is_selected`).
-/

set_option autoImplicit false
set_option relaxedAutoImplicit false

namespace Elua.Devman

open Foundation

variable {Pdata Function : Type*}

/-! ### Paths below a first component -/

/-- A path with a first component and a rest that is not empty. -/
structure DevicePath where
  component : List UInt8
  rest : List UInt8
  component_ne : component ≠ []
  rest_ne : rest ≠ []
  slash_notMem : slash ∉ component
  zero_notMem_component : (0 : UInt8) ∉ component
  zero_notMem_rest : (0 : UInt8) ∉ rest

/-- The first component with its slash. -/
def DevicePath.first (p : DevicePath) : List UInt8 := slash :: p.component

theorem DevicePath.zero_notMem_first (p : DevicePath) : (0 : UInt8) ∉ p.first := by
  rw [DevicePath.first, List.mem_cons, not_or]
  exact ⟨by decide, p.zero_notMem_component⟩

/-- The whole path. -/
def DevicePath.path (p : DevicePath) : CString where
  bytes := p.first ++ slash :: p.rest
  zero_notMem := by
    rw [List.mem_append, List.mem_cons, not_or, not_or]
    exact ⟨p.zero_notMem_first, by decide, p.zero_notMem_rest⟩

/-- A device name begins the path, up to case. -/
def Begins (dev : DmInstanceData Pdata Function) (path : CString) : Prop :=
  folded dev.name.bytes <+: folded path.bytes

/-- The device has the first component for its name, up to case. -/
def NamedFirst (dev : DmInstanceData Pdata Function) (p : DevicePath) : Prop :=
  folded p.first = folded dev.name.bytes

/-- Both resolvers select the same device and pass on the same path up to its leading slash, or both
select none. -/
def ResolversAgree (table : DmList Pdata Function) (p : DevicePath) : Prop :=
  match findDmEntry table p.path, dmDeviceIdFromName table p.path with
  | none, .error _ => True
  | some (i, actname), .ok (pos, rest) => i = pos ∧ (rest = actname ∨ rest = slash :: actname)
  | _, _ => False

/-- The device at an index is not one whose name ends inside the first component. -/
def NotShorter (table : DmList Pdata Function) (p : DevicePath) (i : ℕ) : Prop :=
  ∀ dev, table.devs[i]? = some dev →
    ¬ (folded dev.name.bytes <+: folded p.first ∧ dev.name.strlen < p.first.length)

/-- The resolvers agree, and neither stops inside the first component. -/
structure ResolvesAlike (table : DmList Pdata Function) (p : DevicePath) : Prop where
  agree : ResolversAgree table p
  entry : ∀ i actname, findDmEntry table p.path = some (i, actname) → NotShorter table p i
  device : ∀ pos rest, dmDeviceIdFromName table p.path = .ok (pos, rest) → NotShorter table p pos

/-- Every registered name that begins the path is the first component, or is shorter while the first
component is registered too. -/
def FirstComponentDecides (table : DmList Pdata Function) (p : DevicePath) : Prop :=
  ∀ dev ∈ table.devs, Begins dev p.path →
    NamedFirst dev p ∨ dev.name.strlen < p.first.length ∧ ∃ other ∈ table.devs, NamedFirst other p

/-! ### The first component -/

theorem NamedFirst.strlen_eq {dev : DmInstanceData Pdata Function} {p : DevicePath}
    (hnamed : NamedFirst dev p) : dev.name.strlen = p.first.length := by
  have hlength := congrArg List.length hnamed
  rw [folded, folded, List.length_map, List.length_map] at hlength
  exact hlength.symm

/-- A device named like the first component begins the path. -/
theorem NamedFirst.begins {dev : DmInstanceData Pdata Function} {p : DevicePath}
    (hnamed : NamedFirst dev p) : Begins dev p.path := by
  refine ⟨folded (slash :: p.rest), ?_⟩
  rw [← (show folded p.first = _ from hnamed)]
  exact (List.map_append ..).symm

/-- A name that begins the path and is as long as the first component is the first component. -/
theorem namedFirst_of_begins {dev : DmInstanceData Pdata Function} {p : DevicePath}
    (hbegins : Begins dev p.path) (hlength : dev.name.strlen = p.first.length) :
    NamedFirst dev p := by
  have hfirst : folded p.first <+: folded p.path.bytes := ⟨folded (slash :: p.rest),
    (List.map_append ..).symm⟩
  refine (List.prefix_of_prefix_length_le hfirst hbegins ?_).eq_of_length ?_
  · rw [folded, folded, List.length_map, List.length_map]
    exact Nat.le_of_eq hlength.symm
  · rw [folded, folded, List.length_map, List.length_map]
    exact hlength.symm

/-- At most one device is named like the first component. -/
theorem eq_of_namedFirst {table : DmList Pdata Function} {p : DevicePath} {i j : ℕ}
    {first second : DmInstanceData Pdata Function} (hi : table.devs[i]? = some first)
    (hj : table.devs[j]? = some second) (hfirst : NamedFirst first p)
    (hsecond : NamedFirst second p) : i = j := by
  by_contra hne
  have hsame : folded first.name.bytes = folded second.name.bytes :=
    (show folded p.first = _ from hfirst).symm.trans hsecond
  have hdistinct := List.pairwise_iff_getElem.mp table.distinct
  obtain ⟨hilt, rfl⟩ := List.getElem?_eq_some_iff.mp hi
  obtain ⟨hjlt, rfl⟩ := List.getElem?_eq_some_iff.mp hj
  obtain hlt | hgt := Nat.lt_or_gt_of_ne hne
  · exact hdistinct i j hilt hjlt hlt hsame
  · exact hdistinct j i hjlt hilt hgt hsame.symm

/-! ### The exact resolver -/

theorem named_first_iff {dev : DmInstanceData Pdata Function} {p : DevicePath} :
    dev.named p.first = true ↔ NamedFirst dev p :=
  DmInstanceData.named_iff p.zero_notMem_first

/-- `find_dm_entry` returns the device named like the first component. -/
theorem findDmEntry_path (table : DmList Pdata Function) (p : DevicePath) :
    findDmEntry table p.path =
      (table.devs.findIdx? (·.named p.first)).map fun i ↦ (i, p.rest) := by
  have hhead : p.path.bytes.head? = some slash := rfl
  have hsplit : p.path.bytes.tail.idxOf? slash = some p.component.length := by
    change (p.component ++ slash :: p.rest).idxOf? slash = _
    have hnone : p.component.findIdx? (· == slash) = none := List.idxOf?_eq_none_iff.mpr p.slash_notMem
    rw [List.idxOf?, List.findIdx?_append, hnone, List.findIdx?_cons, beq_self_eq_true, if_pos rfl,
      Option.map_some, Option.none_or, Nat.zero_add]
  have htake : p.path.bytes.take (p.component.length + 1) = p.first :=
    @List.take_left _ p.first _
  have hdrop : p.path.bytes.drop (p.component.length + 1 + 1) = p.rest := by
    change (p.first ++ slash :: p.rest).drop (p.first.length + 1) = p.rest
    rw [List.drop_append]
    simp
  unfold findDmEntry
  rw [hsplit]
  simp only [hhead, guard_true, htake, hdrop, p.rest_ne, List.length_eq_zero_iff, p.component_ne,
    ne_eq, not_false_eq_true, Option.pure_def, Option.bind_eq_bind, Option.bind_some, or_false,
    Nat.add_eq_right]
  split_ifs with hlong
  · -- a component that is too long is no device's name
    rw [Option.bind_none, List.findIdx?_eq_none_iff.mpr, Option.map_none]
    intro dev hdev
    by_contra hnamed
    have hlength := (named_first_iff.mp (Bool.not_eq_false _ ▸ hnamed)).strlen_eq
    rw [DevicePath.first, List.length_cons] at hlength
    exact absurd (table.name_length dev hdev) (Nat.not_le_of_lt (hlength ▸ hlong))
  · cases table.devs.findIdx? (·.named p.first) <;> rfl

/-- The device that `find_dm_entry` returns. -/
theorem findDmEntry_some {table : DmList Pdata Function} {p : DevicePath} {i : ℕ}
    {actname : List UInt8} (hentry : findDmEntry table p.path = some (i, actname)) :
    actname = p.rest ∧ ∃ dev, table.devs[i]? = some dev ∧ NamedFirst dev p := by
  rw [findDmEntry_path, Option.map_eq_some_iff] at hentry
  obtain ⟨index, hindex, heq⟩ := hentry
  obtain ⟨rfl, rfl⟩ := Prod.mk.inj heq
  obtain ⟨hlt, hnamed, -⟩ := List.findIdx?_eq_some_iff_getElem.mp hindex
  exact ⟨rfl, _, List.getElem?_eq_getElem hlt, named_first_iff.mp hnamed⟩

/-- If `find_dm_entry` finds none, no device is named like the first component. -/
theorem findDmEntry_none {table : DmList Pdata Function} {p : DevicePath}
    (hentry : findDmEntry table p.path = none) : ∀ dev ∈ table.devs, ¬ NamedFirst dev p := by
  rw [findDmEntry_path, Option.map_eq_none_iff, List.findIdx?_eq_none_iff] at hentry
  intro dev hdev hnamed
  exact Bool.false_ne_true ((hentry dev hdev).symm.trans (named_first_iff.mpr hnamed))

/-! ### The resolver by prefix -/

theorem begins_iff {dev : DmInstanceData Pdata Function} {path : CString} :
    strncasecmp dev.name.strlen path.bytes dev.name.bytes = 0 ↔ Begins dev path :=
  strncasecmp_length_eq_zero_iff path.zero_notMem dev.name.zero_notMem

/-- What the search returns: the best device so far, or a device with a longer name that begins the
path; no name that begins the path is longer. -/
structure SearchResult (path : CString) (devs : List (DmInstanceData Pdata Function))
    (i pos matchlen : ℕ) (found : ℕ × ℕ) : Prop where
  matchlen_le : matchlen ≤ found.2
  longest : ∀ dev ∈ devs, Begins dev path → dev.name.strlen ≤ found.2
  chosen : found = (pos, matchlen) ∨ ∃ index dev, devs[index]? = some dev ∧ Begins dev path ∧
    found = (i + index, dev.name.strlen)

theorem searchResult_deviceIdLoop (path : CString) (devs : List (DmInstanceData Pdata Function))
    (i pos matchlen : ℕ) :
    SearchResult path devs i pos matchlen (deviceIdLoop path.bytes devs i pos matchlen) := by
  induction devs generalizing i pos matchlen with
  | nil => exact ⟨Nat.le_refl _, fun _ hmem ↦ absurd hmem List.not_mem_nil, .inl rfl⟩
  | cons dev devs ih =>
    rw [deviceIdLoop]
    split_ifs with hbetter
    · rw [begins_iff] at hbetter
      obtain ⟨hle, hlongest, hchosen⟩ := ih (i + 1) i dev.name.strlen
      refine ⟨Nat.le_trans (Nat.le_of_lt hbetter.2) hle, ?_, .inr ?_⟩
      · exact List.forall_mem_cons.mpr ⟨fun _ ↦ hle, hlongest⟩
      · obtain heq | ⟨index, other, hother, hbegins, heq⟩ := hchosen
        · exact ⟨0, dev, rfl, hbetter.1, heq⟩
        · exact ⟨index + 1, other, hother, hbegins, by rw [heq, Nat.add_assoc, Nat.add_comm 1]⟩
    · rw [begins_iff, not_and, Nat.not_lt] at hbetter
      obtain ⟨hle, hlongest, hchosen⟩ := ih (i + 1) pos matchlen
      refine ⟨hle, List.forall_mem_cons.mpr ⟨fun hbegins ↦ ?_, hlongest⟩, hchosen.imp_right ?_⟩
      · exact Nat.le_trans (hbetter hbegins) hle
      · rintro ⟨index, other, hother, hbegins, heq⟩
        exact ⟨index + 1, other, hother, hbegins, by rw [heq, Nat.add_assoc, Nat.add_comm 1]⟩

/-- A device name is not empty. -/
theorem DmList.strlen_pos (table : DmList Pdata Function) {dev : DmInstanceData Pdata Function}
    (hdev : dev ∈ table.devs) : 0 < dev.name.strlen := by
  have hhead := table.name_head dev hdev
  unfold CString.strlen
  cases hbytes : dev.name.bytes with
  | nil =>
    rw [hbytes] at hhead
    cases hhead
  | cons byte bytes => exact Nat.succ_pos _

/-- The device that `dm_device_id_from_name` returns has the longest name that begins the path. -/
theorem dmDeviceIdFromName_ok {table : DmList Pdata Function} {path : CString} {pos : ℕ}
    {rest : List UInt8} (hdevice : dmDeviceIdFromName table path = .ok (pos, rest)) :
    ∃ dev, table.devs[pos]? = some dev ∧ Begins dev path ∧
      rest = path.bytes.drop dev.name.strlen ∧
      ∀ other ∈ table.devs, Begins other path → other.name.strlen ≤ dev.name.strlen := by
  obtain ⟨-, hlongest, hchosen⟩ := searchResult_deviceIdLoop path table.devs 0 0 0
  unfold dmDeviceIdFromName at hdevice
  dsimp only at hdevice
  split_ifs at hdevice with hzero
  obtain ⟨rfl, rfl⟩ := Prod.mk.inj (Except.ok.inj hdevice)
  obtain heq | ⟨index, dev, hindex, hbegins, heq⟩ := hchosen
  · exact absurd (congrArg Prod.snd heq) hzero
  · rw [heq] at hlongest ⊢
    rw [Nat.zero_add]
    exact ⟨dev, hindex, hbegins, rfl, hlongest⟩

/-- If `dm_device_id_from_name` fails, no device name begins the path. -/
theorem dmDeviceIdFromName_error {table : DmList Pdata Function} {path : CString} {err : DmErr}
    (hdevice : dmDeviceIdFromName table path = .error err) :
    ∀ dev ∈ table.devs, ¬ Begins dev path := by
  obtain ⟨-, hlongest, -⟩ := searchResult_deviceIdLoop path table.devs 0 0 0
  unfold dmDeviceIdFromName at hdevice
  dsimp only at hdevice
  split_ifs at hdevice with hzero
  intro dev hdev hbegins
  have hpositive := table.strlen_pos hdev
  have hle := hlongest dev hdev hbegins
  omega

/-! ### Agreement -/

/-- A device named like the first component does not stop inside it. -/
theorem notShorter_of_namedFirst {table : DmList Pdata Function} {p : DevicePath} {i : ℕ}
    {dev : DmInstanceData Pdata Function} (hi : table.devs[i]? = some dev)
    (hnamed : NamedFirst dev p) : NotShorter table p i := by
  intro other hother hshort
  obtain rfl := Option.some.inj (hi.symm.trans hother)
  exact absurd hshort.2 (Nat.not_lt_of_le (Nat.le_of_eq hnamed.strlen_eq.symm))

/-- The two resolvers select the same device, with the same path up to its leading slash, and never
one whose name ends inside the first component, exactly when every registered name that begins the
path is the first component or a shorter one beside it. -/
theorem resolvesAlike_iff (table : DmList Pdata Function) (p : DevicePath) :
    ResolvesAlike table p ↔ FirstComponentDecides table p := by
  constructor
  · intro halike dev hdev hbegins
    have hagree := halike.agree
    unfold ResolversAgree at hagree
    cases hdevice : dmDeviceIdFromName table p.path with
    | error err => exact absurd hbegins (dmDeviceIdFromName_error hdevice dev hdev)
    | ok found =>
      obtain ⟨longest, hpos, -, -, hlongest⟩ := dmDeviceIdFromName_ok hdevice
      cases hentry : findDmEntry table p.path with
      | none =>
        rw [hentry, hdevice] at hagree
        exact hagree.elim
      | some entry =>
        rw [hentry, hdevice] at hagree
        obtain ⟨-, named, hi, hnamed⟩ := findDmEntry_some hentry
        rw [hagree.1, hpos] at hi
        obtain rfl := Option.some.inj hi
        have hle := hlongest dev hdev hbegins
        rw [hnamed.strlen_eq] at hle
        obtain heq | hlt := Nat.eq_or_lt_of_le hle
        · exact .inl (namedFirst_of_begins hbegins heq)
        · exact .inr ⟨hlt, longest, List.mem_of_getElem? hpos, hnamed⟩
  · intro hdecides
    cases hentry : findDmEntry table p.path with
    | none =>
      have hnone := findDmEntry_none hentry
      cases hdevice : dmDeviceIdFromName table p.path with
      | error err =>
        refine ⟨?_, fun i actname hsome ↦ ?_, fun pos rest hok ↦ ?_⟩
        · unfold ResolversAgree
          rw [hentry, hdevice]
          exact trivial
        · rw [hentry] at hsome
          cases hsome
        · rw [hdevice] at hok
          cases hok
      | ok found =>
        -- the name found begins the path, so the first component would be registered
        obtain ⟨dev, hpos, hbegins, -, -⟩ := dmDeviceIdFromName_ok hdevice
        obtain hnamed | ⟨-, other, hother, hnamed⟩ :=
          hdecides dev (List.mem_of_getElem? hpos) hbegins
        · exact absurd hnamed (hnone dev (List.mem_of_getElem? hpos))
        · exact absurd hnamed (hnone other hother)
    | some entry =>
      obtain ⟨hrest, named, hi, hnamed⟩ := findDmEntry_some hentry
      cases hdevice : dmDeviceIdFromName table p.path with
      | error err =>
        exact absurd hnamed.begins
          (dmDeviceIdFromName_error hdevice named (List.mem_of_getElem? hi))
      | ok found =>
        obtain ⟨dev, hpos, hbegins, hdrop, hlongest⟩ := dmDeviceIdFromName_ok hdevice
        have hle := hlongest named (List.mem_of_getElem? hi) hnamed.begins
        rw [hnamed.strlen_eq] at hle
        have hdev : NamedFirst dev p :=
          (hdecides dev (List.mem_of_getElem? hpos) hbegins).resolve_right fun hshort ↦
            absurd hshort.1 (Nat.not_lt_of_le hle)
        refine ⟨?_, fun i actname hsome ↦ ?_, fun pos rest hok ↦ ?_⟩
        · unfold ResolversAgree
          rw [hentry, hdevice]
          refine ⟨eq_of_namedFirst hi hpos hnamed hdev, .inr ?_⟩
          rw [hdrop, hdev.strlen_eq, hrest]
          exact List.drop_left
        · rw [hentry] at hsome
          obtain rfl := Option.some.inj hsome
          exact notShorter_of_namedFirst hi hnamed
        · rw [hdevice] at hok
          obtain rfl := Except.ok.inj hok
          exact notShorter_of_namedFirst hpos hdev

/-- With only "/ro" registered, "/rom/a" is no path of `open`, but `dm_opendir` goes to "/ro" with
the rest "m/a". -/
theorem shorter_name_is_selected :
    ¬ ∀ (table : DmList Unit Unit) (p : DevicePath), ResolvesAlike table p := by
  intro hall
  let table : DmList Unit Unit :=
    (dmRegister .empty (some ⟨[0x2F, 0x72, 0x6F], by decide⟩) () (some fun _ ↦ some ())).2
  let p : DevicePath :=
    ⟨[0x72, 0x6F, 0x6D], [0x61], by decide, by decide, by decide, by decide, by decide⟩
  have hagree := (hall table p).agree
  have hentry : findDmEntry table p.path = none := by decide
  have hdevice : dmDeviceIdFromName table p.path = .ok (0, [0x6D, 0x2F, 0x61]) := rfl
  unfold ResolversAgree at hagree
  rw [hentry, hdevice] at hagree
  exact hagree

end Elua.Devman
