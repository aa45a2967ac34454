import Elua.Lua.Rotable

/-!
# Foreign keys on rotables

A lookup or a step of an iteration may be asked for a key that the rotable does not have.
`luaR_next` looks for the position of the key and goes on from the local variable that the search
sets only if it finds something, so `luaRNextWith` takes what this variable holds. For a key that is
neither a string nor a number it returns the key that it was given.

`FailsCleanly` says that a lookup gives nil and a step ends the iteration, whatever the variable
holds. The search converts the key first: a string is cut at its first zero, or to nothing if it is
long, and a number is cast to an integer. A foreign key fails cleanly only if it happens to be
converted to the key of the last entry (`failsCleanly_iff`). -/

set_option autoImplicit false
set_option relaxedAutoImplicit false

namespace Elua.Lua

open Foundation

variable {N : NumberType}

/-! ### Iteration from any key -/

/-- The array of a rotable, given by the entries in front of the one that ends it. It has fewer
elements than the largest `int`; an address space of 32 bits has no room for more. -/
structure EntryArray (N : NumberType) where
  entries : List (LuaREntry N)
  key_ne_nil : ∀ entry ∈ entries, entry.key ≠ .nil
  length_lt : entries.length + 1 < 2 ^ 31 - 1

/-- The elements of the array. -/
def EntryArray.array (rotable : EntryArray N) : List (LuaREntry N) :=
  rotable.entries ++ [⟨.nil, .nil⟩]

/-- `keypos` behind `keypos ++` in `luaR_next`: the position that the search stored, or what the
variable held, plus one. -/
def nextPos (held : UInt32) : Option (TValue N × ℕ) → ℕ
  | some (_, i) => i + 1
  | none => (held + 1).toNat

/-- The key that the search of `luaR_next` and of lookups compares with. -/
def TValue.searched : TValue N → Option LuaRKey
  | .string ts => some (.string (.ofBuffer (luaRGetcstr ts luaMaxRotableName)))
  | .number n => some (.number (N.toNumkey n))
  | _ => none

/-- `luaR_next`, where `keypos` holds a value before the search. There is no result if it reads
outside of the array. -/
def luaRNextWith (held : UInt32) (data : List (LuaREntry N)) (key val : TValue N) :
    Option (TValue N × TValue N) :=
  match key with
  | .nil => luaRNextHelper data 0
  | .string ts =>
    let strkey := CString.ofBuffer (luaRGetcstr ts luaMaxRotableName)
    luaRNextHelper data (nextPos held (luaRFindentry (some data) (some strkey) 0))
  | .number n =>
    luaRNextHelper data (nextPos held (luaRFindentry (some data) none (N.toNumkey n)))
  | _ => some (key, val)

/-- What `luaH_next_ro` returns with a key and a value: whether the key is not nil. -/
def nextResult (next : TValue N × TValue N) : Bool × TValue N × TValue N :=
  (match next.1 with | .nil => false | _ => true, next)

/-- `luaH_next_ro`: what it returns, and the key and value that it leaves. -/
def luaHNextRoWith (held : UInt32) (t : List (LuaREntry N)) (key val : TValue N) :
    Option (Bool × TValue N × TValue N) :=
  (luaRNextWith held t key val).map nextResult

/-- From a key of the rotable the iteration goes on as it does without the variable. -/
theorem luaHNextRoWith_of_luaHNextRo {t : List (LuaREntry N)} {key val : TValue N}
    {result : Bool × TValue N × TValue N} (hnext : luaHNextRo t key val = some result)
    (held : UInt32) : luaHNextRoWith held t key val = some result := by
  unfold luaHNextRo at hnext
  obtain ⟨next, hstep, rfl⟩ := Option.map_eq_some_iff.mp hnext
  refine Option.map_eq_some_iff.mpr ⟨next, ?_, rfl⟩
  cases key with
  | string ts =>
    obtain ⟨found, hfound, hstep⟩ := Option.bind_eq_some_iff.mp hstep
    unfold luaRNextWith
    dsimp only
    rw [hfound]
    exact hstep
  | number n =>
    obtain ⟨found, hfound, hstep⟩ := Option.bind_eq_some_iff.mp hstep
    unfold luaRNextWith
    dsimp only
    rw [hfound]
    exact hstep
  | nil | boolean _ | lightuserdata _ | table _ | function _ | userdata _ | thread _ | rotable _
  | lightfunction _ => exact hstep

/-! ### What is promised -/

section Foreign

variable (rotable : EntryArray N) (key : TValue N)

/-- The key is neither nil nor one of the keys of the rotable. -/
def EntryArray.Foreign : Prop :=
  key ≠ .nil ∧ ∀ entry ∈ rotable.entries, rawEqual entry.key.toValue key = false

/-- A lookup gives nil, and a step ends the iteration, whatever the variable of `luaR_next` held. -/
def EntryArray.FailsCleanly : Prop :=
  luaHGetRo (some rotable.array) key = .nil ∧
    ∀ held val, ∃ left, luaHNextRoWith held rotable.array key val = some (false, left)

/-- The key is converted to the key of the last entry and of no other; for a string the value of
this entry is nil. -/
def EntryArray.MeetsLast : Prop :=
  ∃ before last, rotable.entries = before ++ [last] ∧ key.searched = some last.key ∧
    (∀ other ∈ before, other.key ≠ last.key) ∧
      ∀ ts, key = .string ts → last.value = .nil

end Foreign

/-! ### Where the search ends -/

variable {rotable : EntryArray N}

/-- A search finds the first entry with the key. -/
theorem EntryArray.findentry_first {strkey : Option CString} {numkey : Int32}
    {before after : List (LuaREntry N)} {entry : LuaREntry N}
    (hentries : rotable.entries = before ++ entry :: after)
    (hkey : entry.key = searchedKey strkey numkey)
    (hearlier : ∀ other ∈ before, other.key ≠ searchedKey strkey numkey) :
    luaRFindentry (some rotable.array) strkey numkey = some (entry.value, before.length) := by
  unfold luaRFindentry luaRAuxfind EntryArray.array
  rw [Option.bind_some, hentries, List.append_assoc, List.cons_append,
    auxfindLoop_append (fun other hmem ↦ ⟨rotable.key_ne_nil other ?_, hearlier other hmem⟩) hkey,
    Nat.zero_add]
  rw [hentries]
  exact List.mem_append_left _ hmem

/-- A search finds nothing, or the first entry with the key. -/
theorem EntryArray.findentry_cases (rotable : EntryArray N) (strkey : Option CString)
    (numkey : Int32) :
    (luaRFindentry (some rotable.array) strkey numkey = none ∧
      ∀ entry ∈ rotable.entries, entry.key ≠ searchedKey strkey numkey) ∨
    ∃ before entry after, rotable.entries = before ++ entry :: after ∧
      entry.key = searchedKey strkey numkey ∧
      (∀ other ∈ before, other.key ≠ searchedKey strkey numkey) ∧
        luaRFindentry (some rotable.array) strkey numkey = some (entry.value, before.length) := by
  cases hfind : rotable.entries.find? (·.key == searchedKey strkey numkey) with
  | none =>
    have hvalue : (auxfindLoop strkey numkey 0 (rotable.entries ++ [⟨.nil, .nil⟩])).map Prod.fst =
      _ := map_fst_auxfindLoop rotable.key_ne_nil 0
    rw [hfind, Option.map_none, Option.map_eq_none_iff] at hvalue
    refine .inl ⟨hvalue, fun entry hmem hkey ↦ ?_⟩
    exact List.find?_eq_none.mp hfind entry hmem (beq_iff_eq.mpr hkey)
  | some entry =>
    obtain ⟨hkey, before, after, hentries, hbefore⟩ := List.find?_eq_some_iff_append.mp hfind
    have hkey := beq_iff_eq.mp hkey
    have hearlier : ∀ other ∈ before, other.key ≠ searchedKey strkey numkey := by
      intro other hmem heq
      have hother := hbefore other hmem
      rw [beq_iff_eq.mpr heq] at hother
      cases hother
    exact .inr ⟨before, entry, after, hentries, hkey, hearlier,
      EntryArray.findentry_first hentries hkey hearlier⟩

/-- A step that reads the array at a position ends the iteration exactly behind the entries. -/
theorem EntryArray.ends_iff (rotable : EntryArray N) (pos : ℕ) :
    (∃ left, (luaRNextHelper rotable.array pos).map nextResult = some (false, left)) ↔
      pos = rotable.entries.length := by
  unfold luaRNextHelper EntryArray.array
  rcases Nat.lt_trichotomy pos rotable.entries.length with hless | rfl | hmore
  · have hmem := List.getElem_mem hless
    have hkey := rotable.key_ne_nil _ hmem
    rw [List.getElem?_append_left hless, List.getElem?_eq_getElem hless, Option.map_some,
      Option.map_some, if_neg hkey]
    refine iff_of_false ?_ (Nat.ne_of_lt hless)
    rintro ⟨left, heq⟩
    have hmore := congrArg Prod.fst (Option.some.inj heq)
    unfold nextResult at hmore
    cases hcase : rotable.entries[pos].key with
    | nil => exact hkey hcase
    | string strkey =>
      rw [hcase] at hmore
      cases hmore
    | number numkey =>
      rw [hcase] at hmore
      cases hmore
  · rw [List.getElem?_concat_length]
    exact iff_of_true ⟨_, rfl⟩ rfl
  · have hbehind : (rotable.entries ++ [⟨.nil, .nil⟩])[pos]? = none := by
      rw [List.getElem?_eq_none_iff, List.length_append]
      exact hmore
    rw [hbehind]
    refine iff_of_false ?_ (Nat.ne_of_gt hmore)
    rintro ⟨left, heq⟩
    cases heq

/-- The steps from a position that a search stored, or did not store, end the iteration whatever the
variable held exactly if the search has found the last entry. -/
theorem EntryArray.forall_ends_iff (rotable : EntryArray N) (strkey : Option CString)
    (numkey : Int32) :
    (∀ held, ∃ left, (luaRNextHelper rotable.array
        (nextPos held (luaRFindentry (some rotable.array) strkey numkey))).map nextResult =
          some (false, left)) ↔
      ∃ before last, rotable.entries = before ++ [last] ∧ last.key = searchedKey strkey numkey ∧
        ∀ other ∈ before, other.key ≠ last.key := by
  simp only [rotable.ends_iff]
  rcases rotable.findentry_cases strkey numkey with
    ⟨hfound, hnone⟩ | ⟨before, entry, after, hentries, hkey, hbefore, hfound⟩
  · rw [hfound]
    refine iff_of_false (fun hall ↦ ?_) ?_
    · -- The variable can hold the position of the first entry, or another one.
      have hfirst := (hall 0).trans (hall 1).symm
      cases hfirst
    · rintro ⟨before, last, hentries, hkey, -⟩
      exact hnone last (hentries ▸ List.mem_append_right _ (List.mem_singleton_self last)) hkey
  · rw [hfound]
    constructor
    · intro hall
      have hlength : before.length + 1 = rotable.entries.length := hall 0
      rw [hentries, List.length_append, List.length_cons] at hlength
      obtain rfl : after = [] := List.length_eq_zero_iff.mp (by omega)
      exact ⟨before, entry, hentries, hkey, hkey ▸ hbefore⟩
    · rintro ⟨firsts, last, hsplit, hlast, hfirsts⟩ held
      rcases List.eq_nil_or_concat after with rfl | ⟨middle, final, rfl⟩
      · rw [hentries, List.length_append]
        rfl
      · -- The entry found would be one of those before the last.
        rw [List.concat_eq_append, ← List.cons_append, ← List.append_assoc, hsplit] at hentries
        obtain ⟨rfl, -⟩ := List.append_inj' hentries rfl
        refine absurd (hkey.trans hlast.symm) (hfirsts entry ?_)
        exact List.mem_append_right _ List.mem_cons_self

/-! ### Foreign keys -/

section Foreign

variable {key : TValue N}

/-- A lookup of a foreign number gives nil. -/
theorem EntryArray.luaHGetRo_number {n : N.Number} (hforeign : rotable.Foreign (.number n)) :
    luaHGetRo (some rotable.array) (.number n) = .nil := by
  unfold luaHGetRo
  dsimp only
  split_ifs with hinteger
  · unfold luaHGetnumRo
    rcases rotable.findentry_cases none (N.number2int n) with
      ⟨hfound, -⟩ | ⟨before, entry, after, hentries, hkey, -, -⟩
    · rw [hfound]
      rfl
    · have hother := hforeign.2 entry (hentries ▸ List.mem_append_right _ List.mem_cons_self)
      rw [hkey] at hother
      exact absurd hinteger (Bool.eq_false_iff.mp hother)
  · rfl

/-- A lookup of a string that is converted to the key of the last entry gives its value. -/
theorem EntryArray.luaHGetRo_last {ts : List UInt8} {before : List (LuaREntry N)}
    {last : LuaREntry N} (hentries : rotable.entries = before ++ [last])
    (hkey : last.key = .string (.ofBuffer (luaRGetcstr ts luaMaxRotableName)))
    (hbefore : ∀ other ∈ before, other.key ≠ last.key) :
    luaHGetRo (some rotable.array) (.string ts) = last.value := by
  have hearlier : ∀ other ∈ before, other.key ≠
      searchedKey (some (.ofBuffer (luaRGetcstr ts luaMaxRotableName))) 0 :=
    fun other hmem heq ↦ hbefore other hmem (heq.trans hkey.symm)
  have hfound : luaRFindentry (some rotable.array)
      (some (.ofBuffer (luaRGetcstr ts luaMaxRotableName))) 0 =
        some (last.value, before.length) := EntryArray.findentry_first hentries hkey hearlier
  unfold luaHGetRo luaHGetstrRo
  dsimp only
  rw [if_neg (by simp), hfound]
  rfl

/-- A foreign key fails cleanly exactly if it is converted to the key of the last entry and of no
other entry, which for a string has no value. -/
theorem failsCleanly_iff (N : NumberType) (rotable : EntryArray N) (key : TValue N)
    (hforeign : rotable.Foreign key) : rotable.FailsCleanly key ↔ rotable.MeetsLast key := by
  cases key with
  | nil => exact absurd rfl hforeign.1
  | string ts =>
    have hends := rotable.forall_ends_iff
      (some (.ofBuffer (luaRGetcstr ts luaMaxRotableName))) 0
    constructor
    · rintro ⟨hget, hnext⟩
      obtain ⟨before, last, hentries, hkey, hbefore⟩ := hends.mp fun held ↦ hnext held .nil
      refine ⟨before, last, hentries, congrArg some hkey.symm, hbefore, fun _ _ ↦ ?_⟩
      exact (EntryArray.luaHGetRo_last hentries hkey hbefore).symm.trans hget
    · rintro ⟨before, last, hentries, hsearched, hbefore, hvalue⟩
      have hkey := (Option.some.inj hsearched).symm
      refine ⟨(EntryArray.luaHGetRo_last hentries hkey hbefore).trans (hvalue ts rfl), ?_⟩
      exact fun held _ ↦ hends.mpr ⟨before, last, hentries, hkey, hbefore⟩ held
  | number n =>
    have hends := rotable.forall_ends_iff none (N.toNumkey n)
    constructor
    · rintro ⟨-, hnext⟩
      obtain ⟨before, last, hentries, hkey, hbefore⟩ := hends.mp fun held ↦ hnext held .nil
      exact ⟨before, last, hentries, congrArg some hkey.symm, hbefore, fun _ h ↦ by cases h⟩
    · rintro ⟨before, last, hentries, hsearched, hbefore, -⟩
      have hkey := (Option.some.inj hsearched).symm
      refine ⟨EntryArray.luaHGetRo_number hforeign, ?_⟩
      exact fun held _ ↦ hends.mpr ⟨before, last, hentries, hkey, hbefore⟩ held
  | boolean _ | lightuserdata _ | table _ | function _ | userdata _ | thread _ | rotable _
  | lightfunction _ =>
    refine iff_of_false (fun hclean ↦ ?_) ?_
    · obtain ⟨left, hleft⟩ := hclean.2 0 .nil
      cases hleft
    · rintro ⟨before, last, -, hsearched, -⟩
      cases hsearched

end Foreign

/-- The entries of the rotable `{ a = true, [1] = 2 }` with numbers of type `double`. -/
def doubleEntries : EntryArray (doubleNumber fun _ ↦ 0) where
  entries := [⟨.string ⟨[0x61], zero_notMem_a⟩, .boolean true⟩, ⟨.number 1, .number (Double.finite 2)⟩]
  key_ne_nil := by simp
  length_lt := by decide

/-- The number 1.5. -/
def oneAndAHalf : Double := .finite ⟨3, 2, by decide, by decide⟩

/-- The key 1.5 is cast to the last key. -/
theorem failsCleanly_iff_fraction : doubleEntries.FailsCleanly (.number oneAndAHalf) := by
  have hforeign : doubleEntries.Foreign (.number oneAndAHalf) := by
    refine ⟨by simp, ?_⟩
    intro entry hentry
    simp only [doubleEntries, List.mem_cons, List.not_mem_nil, or_false] at hentry
    rcases hentry with rfl | rfl <;> decide
  refine (failsCleanly_iff _ doubleEntries _ hforeign).mpr ?_
  refine ⟨[⟨.string ⟨[0x61], by decide⟩, .boolean true⟩], ⟨.number 1, .number (Double.finite 2)⟩,
    rfl, ?_, by simp, fun _ heq ↦ by cases heq⟩
  decide

/-- From the key `true` the iteration goes on at the key `true`. -/
theorem not_failsCleanly_boolean :
    doubleEntries.Foreign (.boolean true) ∧
      luaHNextRoWith 0 doubleEntries.array (.boolean true) .nil =
        some (true, .boolean true, .nil) ∧
      ¬doubleEntries.FailsCleanly (.boolean true) := by
  have hforeign : doubleEntries.Foreign (.boolean true) := by
    refine ⟨by simp, ?_⟩
    simp [doubleEntries, LuaRKey.toValue, rawEqual]
  refine ⟨hforeign, rfl, fun hclean ↦ ?_⟩
  obtain ⟨left, hleft⟩ := hclean.2 0 .nil
  cases hleft

end Elua.Lua
