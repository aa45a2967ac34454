import Elua.Foundation.CString
import Elua.Foundation.Loop
import Elua.Lua.Number
import Mathlib.Data.List.Nodup

/-!
# Read-only tables

A rotable is a constant array of entries, ended by one with a nil key. The functions of `lrotable.c`
and `ltable.c` search it from the front for a string or an integer (`luaRAuxfind`), and iteration
finds its place again from the last key (`luaRNext`).

`readsLikeTable` says that a rotable with distinct keys in bounds reads like an ordinary table:
every lookup is the one in the list of its keys and values, iteration visits this list in its order
and ends, and the length is the number of the integers from 1 on that are keys.
-/

set_option autoImplicit false
set_option relaxedAutoImplicit false

namespace Elua.Lua

open Foundation

/-! ### Values and entries -/

/-- A Lua value. Strings are given by their bytes, as equal strings are the same object, and other
objects by their addresses. -/
inductive TValue (N : NumberType)
  | nil
  | boolean (b : Bool)
  | lightuserdata (p : ℕ)
  | number (n : N.Number)
  | string (ts : List UInt8)
  | table (p : ℕ)
  | function (p : ℕ)
  | userdata (p : ℕ)
  | thread (p : ℕ)
  | rotable (p : ℕ)
  | lightfunction (p : ℕ)

/-- `luaR_key`. -/
inductive LuaRKey
  | nil
  | string (strkey : CString)
  | number (numkey : Int32)
  deriving DecidableEq

/-- `luaR_entry`. -/
structure LuaREntry (N : NumberType) where
  key : LuaRKey
  value : TValue N

/-- `LUA_MAX_ROTABLE_NAME`. -/
def luaMaxRotableName : ℕ := 32

variable {N : NumberType}

/-! ### Searching -/

/-- The entry found by `luaR_auxfind` matches: it looks for a string if one is given, and for a
number otherwise. -/
def LuaRKey.matches (strkey : Option CString) (numkey : Int32) : LuaRKey → Bool
  | .nil => false
  | .string key => match strkey with
    | some strkey => strcmp key.bytes strkey.bytes == 0
    | none => false
  | .number key => strkey.isNone && key == numkey

/-- The loop of `luaR_auxfind`: the value and the position of the first entry that matches. The
array is ended by a nil key. -/
def auxfindLoop (strkey : Option CString) (numkey : Int32) :
    ℕ → List (LuaREntry N) → Option (TValue N × ℕ)
  | _, [] => none
  | i, pentry :: rest =>
    if pentry.key = .nil then none
    else if pentry.key.matches strkey numkey then some (pentry.value, i)
    else auxfindLoop strkey numkey (i + 1) rest

/-- `luaR_auxfind`. The table is given by the entries from its address on. -/
def luaRAuxfind (pentry : Option (List (LuaREntry N))) (strkey : Option CString) (numkey : Int32) :
    Option (TValue N × ℕ) :=
  pentry.bind (auxfindLoop strkey numkey 0)

/-- `luaR_findentry`. -/
def luaRFindentry (data : Option (List (LuaREntry N))) (strkey : Option CString)
    (numkey : Int32) : Option (TValue N × ℕ) :=
  luaRAuxfind data strkey numkey

/-- `luaR_getcstr`: what it writes to the buffer. -/
def luaRGetcstr (src : List UInt8) (maxsize : ℕ) : List UInt8 :=
  if maxsize < src.length + 1 then [0] else src ++ [0]

/-- A result, or `luaO_nilobject`. -/
def orNilobject (res : Option (TValue N × ℕ)) : TValue N :=
  match res with
  | some (value, _) => value
  | none => .nil

/-- `luaH_getnum_ro`. -/
def luaHGetnumRo (t : Option (List (LuaREntry N))) (key : Int32) : TValue N :=
  orNilobject (luaRFindentry t none key)

/-- `luaH_getstr_ro`. -/
def luaHGetstrRo (t : Option (List (LuaREntry N))) (key : List UInt8) : TValue N :=
  if t.isNone then .nil
  else
    let keyname := CString.ofBuffer (luaRGetcstr key luaMaxRotableName)
    orNilobject (luaRFindentry t (some keyname) 0)

/-- `luaH_get_ro`. -/
def luaHGetRo (t : Option (List (LuaREntry N))) : TValue N → TValue N
  | .string key => luaHGetstrRo t key
  | .number n =>
    let k := N.number2int n
    if N.numeq (N.castNum k) n then luaHGetnumRo t k else .nil
  | _ => .nil

/-- The body of the loop of `luaH_getn_ro`. The counter `i` must not overflow. -/
def getnBody (t : Option (List (LuaREntry N))) :
    ℕ × ℕ → Option (ℕ × ℕ ⊕ ℕ)
  | (i, len) =>
    if i + 1 < 2 ^ 31 then
      match luaRFindentry t none (.ofNat i) with
      | some _ => some (.inl (i + 1, len + 1))
      | none => some (.inr len)
    else none

/-- `luaH_getn_ro`. -/
def luaHGetnRo (t : Option (List (LuaREntry N))) (fuel : ℕ) : Option ℕ :=
  runLoop (getnBody t) fuel (1, 0)

/-! ### Iteration -/

/-- A key as a Lua value: `luaS_newro` or a number. -/
def LuaRKey.toValue : LuaRKey → TValue N
  | .nil => .nil
  | .string strkey => .string strkey.bytes
  | .number numkey => .number (N.castNum numkey)

/-- `luaR_next_helper`: the key and the value. There is no result outside of the array. -/
def luaRNextHelper (pentries : List (LuaREntry N)) (pos : ℕ) : Option (TValue N × TValue N) :=
  pentries[pos]?.map fun pentry ↦
    if pentry.key = .nil then (.nil, .nil) else (pentry.key.toValue, pentry.value)

/-- `luaR_next`: the key and the value. There is no result if the key is not in the table. -/
def luaRNext (data : List (LuaREntry N)) (key val : TValue N) : Option (TValue N × TValue N) :=
  match key with
  | .nil => luaRNextHelper data 0
  | .string ts =>
    let strkey := CString.ofBuffer (luaRGetcstr ts luaMaxRotableName)
    (luaRFindentry (some data) (some strkey) 0).bind fun (_, keypos) ↦
      luaRNextHelper data (keypos + 1)
  | .number n =>
    (luaRFindentry (some data) none (N.toNumkey n)).bind fun (_, keypos) ↦
      luaRNextHelper data (keypos + 1)
  | _ => some (key, val)

/-- `luaH_next_ro`: whether there is a next entry, with its key and value. -/
def luaHNextRo (t : List (LuaREntry N)) (key val : TValue N) :
    Option (Bool × TValue N × TValue N) :=
  (luaRNext t key val).map fun (key, val) ↦
    (match key with | .nil => false | _ => true, key, val)

/-- Iteration with `luaH_next_ro`: the keys and values visited so far. -/
def nextBody (t : List (LuaREntry N)) :
    TValue N × TValue N × List (TValue N × TValue N) →
      Option (TValue N × TValue N × List (TValue N × TValue N) ⊕ List (TValue N × TValue N))
  | (key, val, visited) => (luaHNextRo t key val).map fun (more, key, val) ↦
    if more then .inl (key, val, visited ++ [(key, val)]) else .inr visited

/-! ### Rotables and what they stand for -/

/-- A rotable whose keys are in bounds and distinct, and whose values are not nil. The array has
fewer elements than the largest `int`; an address space of 32 bits has no room for more. -/
structure Rotable (N : NumberType) where
  entries : List (LuaREntry N)
  key_ne_nil : ∀ entry ∈ entries, entry.key ≠ .nil
  strings : ∀ entry ∈ entries, ∀ strkey, entry.key = .string strkey →
    0 < strkey.strlen ∧ strkey.strlen < luaMaxRotableName
  nodup : (entries.map (·.key)).Nodup
  value_ne_nil : ∀ entry ∈ entries, entry.value ≠ .nil
  length_lt : entries.length + 1 < 2 ^ 31 - 1

/-- The array: the entries and the one that ends them. -/
def Rotable.array (rotable : Rotable N) : List (LuaREntry N) := rotable.entries ++ [⟨.nil, .nil⟩]

/-- The keys and values, as an association list. -/
def Rotable.pairs (rotable : Rotable N) : List (TValue N × TValue N) :=
  rotable.entries.map fun entry ↦ (entry.key.toValue, entry.value)

/-- Equality of values without metamethods. -/
def rawEqual : TValue N → TValue N → Bool
  | .nil, .nil => true
  | .boolean first, .boolean second => first == second
  | .number first, .number second => N.numeq first second
  | .string first, .string second => first == second
  | .lightuserdata first, .lightuserdata second | .table first, .table second
  | .function first, .function second | .userdata first, .userdata second
  | .thread first, .thread second | .rotable first, .rotable second
  | .lightfunction first, .lightfunction second => first == second
  | _, _ => false

/-- The value of a key in an association list, nil if it is absent. -/
def assocLookup (pairs : List (TValue N × TValue N)) (key : TValue N) : TValue N :=
  match pairs.find? fun pair ↦ rawEqual pair.1 key with
  | some pair => pair.2
  | none => .nil

/-- A key whose string form is not empty, short enough, and without zeros. -/
def KeyInBounds : TValue N → Prop
  | .string ts => 0 < ts.length ∧ ts.length < luaMaxRotableName ∧ 0 ∉ ts
  | _ => True

/-! ### What is found -/

/-- The key that a search looks for. -/
def searchedKey (strkey : Option CString) (numkey : Int32) : LuaRKey :=
  match strkey with
  | some strkey => .string strkey
  | none => .number numkey

theorem matches_iff {strkey : Option CString} {numkey : Int32} (key : LuaRKey) :
    key.matches strkey numkey = true ↔ key = searchedKey strkey numkey := by
  unfold LuaRKey.matches searchedKey
  cases key with
  | nil => cases strkey <;> simp
  | string key =>
    cases strkey with
    | none => simp
    | some strkey =>
      dsimp only
      rw [beq_iff_eq, strcmp_eq_zero_iff key.zero_notMem strkey.zero_notMem,
        LuaRKey.string.injEq, CString.mk.injEq]
  | number key => cases strkey <;> simp

/-- The value found is that of the first entry with the key. -/
theorem map_fst_auxfindLoop {strkey : Option CString} {numkey : Int32}
    {entries : List (LuaREntry N)} (hkeys : ∀ entry ∈ entries, entry.key ≠ .nil) (start : ℕ) :
    (auxfindLoop strkey numkey start (entries ++ [⟨.nil, .nil⟩])).map Prod.fst =
      (entries.find? (·.key == searchedKey strkey numkey)).map (·.value) := by
  induction entries generalizing start with
  | nil => rfl
  | cons entry entries ih =>
    rw [List.cons_append, auxfindLoop, if_neg (hkeys entry List.mem_cons_self), List.find?_cons]
    by_cases hkey : entry.key = searchedKey strkey numkey
    · rw [if_pos ((matches_iff _).mpr hkey), beq_iff_eq.mpr hkey]
      rfl
    · rw [if_neg (mt (matches_iff _).mp hkey), beq_eq_false_iff_ne.mpr hkey]
      exact ih (fun other hmem ↦ hkeys other (List.mem_cons_of_mem _ hmem)) (start + 1)

/-- The position found is that of the first entry with the key. -/
theorem auxfindLoop_append {strkey : Option CString} {numkey : Int32}
    {before after : List (LuaREntry N)} {entry : LuaREntry N}
    (hkeys : ∀ other ∈ before, other.key ≠ .nil ∧ other.key ≠ searchedKey strkey numkey)
    (hentry : entry.key = searchedKey strkey numkey) (start : ℕ) :
    auxfindLoop strkey numkey start (before ++ entry :: after) =
      some (entry.value, start + before.length) := by
  induction before generalizing start with
  | nil =>
    have hnil : entry.key ≠ .nil := by
      rw [hentry]
      unfold searchedKey
      cases strkey <;> simp
    rw [List.nil_append, auxfindLoop, if_neg hnil, if_pos ((matches_iff _).mpr hentry)]
    rfl
  | cons other before ih =>
    obtain ⟨hnil, hne⟩ := hkeys other List.mem_cons_self
    rw [List.cons_append, auxfindLoop, if_neg hnil, if_neg (mt (matches_iff _).mp hne),
      ih (fun later hmem ↦ hkeys later (List.mem_cons_of_mem _ hmem)), List.length_cons,
      Nat.add_right_comm, Nat.add_assoc]

/-- A key within bounds is passed on as a string of C. -/
theorem bytes_luaRGetcstr {ts : List UInt8} (hshort : ts.length < luaMaxRotableName)
    (hzero : (0 : UInt8) ∉ ts) :
    (CString.ofBuffer (luaRGetcstr ts luaMaxRotableName)).bytes = ts := by
  unfold luaRGetcstr
  rw [if_neg (Nat.not_lt_of_le hshort)]
  exact CString.bytes_ofBuffer hzero

/-! ### Lookups -/

variable (rotable : Rotable N)

/-- What a search finds in a rotable. -/
theorem Rotable.orNilobject_findentry (strkey : Option CString) (numkey : Int32) :
    orNilobject (luaRFindentry (some rotable.array) strkey numkey) =
      ((rotable.entries.find? (·.key == searchedKey strkey numkey)).map (·.value)).getD .nil := by
  rw [← map_fst_auxfindLoop rotable.key_ne_nil 0]
  unfold luaRFindentry luaRAuxfind Rotable.array
  rw [Option.bind_some]
  cases auxfindLoop strkey numkey 0 (rotable.entries ++ [⟨.nil, .nil⟩]) <;> rfl

/-- A lookup in the association list, for a key that is equal to one key of entries only. -/
theorem Rotable.assocLookup_pairs {key : TValue N} {searched : LuaRKey}
    (hequal : ∀ entry ∈ rotable.entries, rawEqual entry.key.toValue key = (entry.key == searched)) :
    assocLookup rotable.pairs key =
      ((rotable.entries.find? (·.key == searched)).map (·.value)).getD .nil := by
  have hfind : rotable.pairs.find? (fun pair ↦ rawEqual pair.1 key) =
      (rotable.entries.find? (·.key == searched)).map
        fun entry ↦ (entry.key.toValue, entry.value) := by
    unfold Rotable.pairs
    rw [List.find?_map]
    refine congrArg _ ?_
    rw [← List.head?_filter, ← List.head?_filter]
    exact congrArg _ (List.filter_congr hequal)
  unfold assocLookup
  rw [hfind]
  cases rotable.entries.find? (·.key == searched) <;> rfl

/-- No entry has a key equal to the given one. -/
theorem Rotable.assocLookup_absent {key : TValue N}
    (habsent : ∀ entry ∈ rotable.entries, rawEqual entry.key.toValue key = false) :
    assocLookup rotable.pairs key = .nil := by
  unfold assocLookup Rotable.pairs
  rw [List.find?_eq_none.mpr]
  intro pair hmem
  obtain ⟨entry, hentry, rfl⟩ := List.mem_map.mp hmem
  exact Bool.eq_false_iff.mp (habsent entry hentry)

/-- A number that is an integer is found by this integer. -/
theorem Rotable.luaHGetnumRo_of_numeq {key : Int32} {n : N.Number}
    (hinteger : N.numeq (N.castNum key) n = true) :
    luaHGetnumRo (some rotable.array) key = assocLookup rotable.pairs (.number n) := by
  unfold luaHGetnumRo
  rw [rotable.orNilobject_findentry, rotable.assocLookup_pairs]
  intro entry hentry
  have hnil := rotable.key_ne_nil entry hentry
  cases hkey : entry.key with
  | nil => exact absurd hkey hnil
  | string strkey => rfl
  | number numkey =>
    rw [Bool.eq_iff_iff, beq_iff_eq, searchedKey, LuaRKey.number.injEq]
    constructor
    · intro hequal
      exact (N.number2int_of_numeq numkey n hequal).symm.trans (N.number2int_of_numeq key n hinteger)
    · rintro rfl
      exact hinteger

theorem Rotable.luaHGetnumRo_eq (key : Int32) : luaHGetnumRo (some rotable.array) key =
    assocLookup rotable.pairs (.number (N.castNum key)) :=
  rotable.luaHGetnumRo_of_numeq ((N.numeq_castNum key key).mpr rfl)

theorem Rotable.luaHGetstrRo_eq {key : List UInt8} (hbounds : KeyInBounds (N := N) (.string key)) :
    luaHGetstrRo (some rotable.array) key = assocLookup rotable.pairs (.string key) := by
  obtain ⟨-, hshort, hzero⟩ := hbounds
  have hbytes := bytes_luaRGetcstr hshort hzero
  unfold luaHGetstrRo
  rw [if_neg (by simp), rotable.orNilobject_findentry, rotable.assocLookup_pairs]
  intro entry hentry
  have hnil := rotable.key_ne_nil entry hentry
  cases hkey : entry.key with
  | nil => exact absurd hkey hnil
  | number numkey => rfl
  | string strkey =>
    rw [Bool.eq_iff_iff, beq_iff_eq, searchedKey, LuaRKey.string.injEq, CString.mk.injEq, hbytes]
    exact beq_iff_eq

/-- The value of every key in bounds is the one in the association list. -/
theorem Rotable.luaHGetRo_eq {key : TValue N} (hbounds : KeyInBounds key) :
    luaHGetRo (some rotable.array) key = assocLookup rotable.pairs key := by
  have hother : (∀ ts, key ≠ .string ts) → (∀ n, key ≠ .number n) →
      assocLookup rotable.pairs key = .nil := by
    intro hstring hnumber
    refine rotable.assocLookup_absent fun entry hentry ↦ ?_
    have hnil := rotable.key_ne_nil entry hentry
    cases hkey : entry.key with
    | nil => exact absurd hkey hnil
    | string strkey => cases key <;> first | rfl | exact absurd rfl (hstring _)
    | number numkey => cases key <;> first | rfl | exact absurd rfl (hnumber _)
  cases key with
  | string ts => exact rotable.luaHGetstrRo_eq hbounds
  | number n =>
    unfold luaHGetRo
    dsimp only
    split_ifs with hinteger
    · exact rotable.luaHGetnumRo_of_numeq hinteger
    · refine (rotable.assocLookup_absent fun entry hentry ↦ ?_).symm
      have hnil := rotable.key_ne_nil entry hentry
      cases hkey : entry.key with
      | nil => exact absurd hkey hnil
      | string strkey => rfl
      | number numkey =>
        refine Bool.eq_false_iff.mpr fun hequal ↦ hinteger ?_
        rw [N.number2int_of_numeq numkey n hequal]
        exact hequal
  | nil | boolean _ | lightuserdata _ | table _ | function _ | userdata _ | thread _ | rotable _
  | lightfunction _ =>
    exact (hother (by simp) (by simp)).symm

/-! ### Iteration -/

/-- The key and the value of an entry. -/
def LuaREntry.pair (entry : LuaREntry N) : TValue N × TValue N := (entry.key.toValue, entry.value)

/-- From the key of an entry, iteration goes on at the entry after it. -/
theorem Rotable.luaRNext_entry {before after : List (LuaREntry N)} {entry : LuaREntry N}
    (hentries : rotable.entries = before ++ entry :: after) (val : TValue N) :
    luaRNext rotable.array entry.key.toValue val =
      luaRNextHelper rotable.array (before.length + 1) := by
  have hmem : entry ∈ rotable.entries := hentries ▸ List.mem_append_right _ List.mem_cons_self
  have hnodup := rotable.nodup
  rw [hentries, List.map_append, List.map_cons] at hnodup
  have hbefore : ∀ other ∈ before, other.key ≠ .nil ∧ other.key ≠ entry.key := by
    intro other hother
    refine ⟨rotable.key_ne_nil other (hentries ▸ List.mem_append_left _ hother), fun hsame ↦ ?_⟩
    exact List.disjoint_of_nodup_append hnodup (List.mem_map_of_mem hother)
      (hsame ▸ List.mem_cons_self)
  have hfound : ∀ strkey numkey, entry.key = searchedKey strkey numkey →
      luaRFindentry (some rotable.array) strkey numkey = some (entry.value, before.length) := by
    intro strkey numkey hkey
    unfold luaRFindentry luaRAuxfind Rotable.array
    rw [Option.bind_some, hentries, List.append_assoc, List.cons_append,
      auxfindLoop_append (hkey ▸ hbefore) hkey, Nat.zero_add]
  cases hkey : entry.key with
  | nil => exact absurd hkey (rotable.key_ne_nil entry hmem)
  | string strkey =>
    have hbytes : CString.ofBuffer (luaRGetcstr strkey.bytes luaMaxRotableName) = strkey := by
      have hequal := bytes_luaRGetcstr (rotable.strings entry hmem strkey hkey).2 strkey.zero_notMem
      cases strkey
      rw [CString.mk.injEq]
      exact hequal
    unfold LuaRKey.toValue luaRNext
    dsimp only
    rw [hbytes, hfound (some strkey) 0 hkey]
    rfl
  | number numkey =>
    unfold LuaRKey.toValue luaRNext
    dsimp only
    rw [N.toNumkey_castNum, hfound none numkey hkey]
    rfl

/-- Iteration that is at a place of the array visits the rest of the entries. -/
theorem Rotable.runLoop_nextBody {before after : List (LuaREntry N)}
    (hentries : rotable.entries = before ++ after) {key val : TValue N}
    (hnext : luaRNext rotable.array key val = luaRNextHelper rotable.array before.length)
    (visited : List (TValue N × TValue N)) :
    runLoop (nextBody rotable.array) (after.length + 1) (key, val, visited) =
      some (visited ++ after.map LuaREntry.pair) := by
  induction after generalizing before key val visited with
  | nil =>
    rw [List.append_nil] at hentries
    have hend : luaRNextHelper rotable.array before.length = some (.nil, .nil) := by
      unfold luaRNextHelper Rotable.array
      rw [hentries, List.getElem?_concat_length]
      rfl
    rw [List.map_nil, List.append_nil]
    refine runLoop_of_leaves ?_ _
    unfold nextBody luaHNextRo
    dsimp only
    rw [hnext, hend]
    rfl
  | cons entry after ih =>
    have hmem : entry ∈ rotable.entries := hentries ▸ List.mem_append_right _ List.mem_cons_self
    have hhere : luaRNextHelper rotable.array before.length = some entry.pair := by
      unfold luaRNextHelper Rotable.array
      rw [hentries, List.append_assoc, List.getElem?_append_right (Nat.le_refl _), Nat.sub_self,
        List.cons_append, List.getElem?_cons_zero, Option.map_some,
        if_neg (rotable.key_ne_nil entry hmem)]
      rfl
    have hmore : nextBody rotable.array (key, val, visited) =
        some (.inl (entry.key.toValue, entry.value, visited ++ [entry.pair])) := by
      unfold nextBody luaHNextRo
      dsimp only
      rw [hnext, hhere]
      have hnil := rotable.key_ne_nil entry hmem
      unfold LuaREntry.pair
      cases hkey : entry.key with
      | nil => exact absurd hkey hnil
      | string strkey => rfl
      | number numkey => rfl
    have hplace : rotable.entries = (before ++ [entry]) ++ after := by
      rw [hentries, List.append_assoc]
      rfl
    have hgoes : luaRNext rotable.array entry.key.toValue entry.value =
        luaRNextHelper rotable.array (before ++ [entry]).length := by
      rw [rotable.luaRNext_entry hentries, List.length_append]
      rfl
    rw [List.length_cons, runLoop_of_continues hmore, ih hplace hgoes, List.append_assoc]
    rfl

/-! ### The length -/

/-- An integer from 1 on is a key. -/
def Rotable.HasIndex (i : ℕ) : Prop := .number (.ofNat i) ∈ rotable.entries.map (·.key)

instance (i : ℕ) : Decidable (rotable.HasIndex i) := inferInstanceAs (Decidable (_ ∈ _))

theorem Rotable.hasIndex_iff (i : ℕ) : rotable.HasIndex i ↔
    (rotable.entries.find? (·.key == .number (.ofNat i))).isSome = true := by
  rw [List.find?_isSome]
  unfold Rotable.HasIndex
  rw [List.mem_map]
  exact exists_congr fun entry ↦ and_congr_right fun _ ↦ beq_iff_eq.symm

theorem Rotable.hasIndex_iff_findentry (i : ℕ) : rotable.HasIndex i ↔
    (luaRFindentry (some rotable.array) none (.ofNat i)).isSome = true := by
  have hvalue : (luaRFindentry (some rotable.array) none (.ofNat i)).map Prod.fst =
      (rotable.entries.find? (·.key == .number (.ofNat i))).map (·.value) :=
    map_fst_auxfindLoop rotable.key_ne_nil 0
  have hsome := congrArg Option.isSome hvalue
  rw [Option.isSome_map, Option.isSome_map] at hsome
  rw [hsome]
  exact rotable.hasIndex_iff i

/-- The integers that are keys are those with a value. -/
theorem Rotable.hasIndex_iff_assocLookup (i : ℕ) : rotable.HasIndex i ↔
    assocLookup rotable.pairs (.number (N.castNum (.ofNat i))) ≠ .nil := by
  rw [← rotable.luaHGetnumRo_eq, luaHGetnumRo, rotable.orNilobject_findentry,
    rotable.hasIndex_iff, searchedKey]
  cases hfind : rotable.entries.find? (·.key == .number (.ofNat i)) with
  | none => simp
  | some entry =>
    have hvalue := rotable.value_ne_nil entry (List.mem_of_find?_eq_some hfind)
    exact iff_of_true rfl hvalue

theorem ofNat_inj {first second : ℕ} (hfirst : first < 2 ^ 31) (hsecond : second < 2 ^ 31)
    (hsame : Int32.ofNat first = .ofNat second) : first = second := by
  have hvalue := congrArg Int32.toInt hsame
  rw [Int32.toInt_ofNat_of_lt hfirst, Int32.toInt_ofNat_of_lt hsecond] at hvalue
  exact_mod_cast hvalue

/-- The keys are distinct, so a run of integers that are keys is no longer than the list. -/
theorem Rotable.le_length_of_hasIndex {n : ℕ} (hsmall : n < 2 ^ 31)
    (hall : ∀ i, 1 ≤ i → i ≤ n → rotable.HasIndex i) : n ≤ rotable.entries.length := by
  have hnodup : ((List.range n).map fun i ↦ LuaRKey.number (.ofNat (i + 1))).Nodup := by
    refine List.Nodup.map_on (fun first hfirst second hsecond hsame ↦ ?_) List.nodup_range
    rw [List.mem_range] at hfirst hsecond
    have hequal := ofNat_inj (by omega) (by omega) (LuaRKey.number.inj hsame)
    omega
  have hsubset : ((List.range n).map fun i ↦ LuaRKey.number (.ofNat (i + 1))) ⊆
      rotable.entries.map (·.key) := by
    intro key hmem
    obtain ⟨i, hi, rfl⟩ := List.mem_map.mp hmem
    rw [List.mem_range] at hi
    exact hall (i + 1) (by omega) (by omega)
  have hlength := List.Nodup.length_le_of_subset hnodup hsubset
  rwa [List.length_map, List.length_map, List.length_range] at hlength

/-- There is a first integer that is not a key. -/
theorem Rotable.exists_border : ∃ n, n ≤ rotable.entries.length ∧ ¬ rotable.HasIndex (n + 1) ∧
    ∀ i, 1 ≤ i → i ≤ n → rotable.HasIndex i := by
  have hlength := rotable.length_lt
  have hmissing : ∃ n, ¬ rotable.HasIndex (n + 1) := by
    by_contra hall
    rw [not_exists] at hall
    have htoo := rotable.le_length_of_hasIndex (n := rotable.entries.length + 1) (by omega)
      fun i hlow _ ↦ by
        have hindex := not_not.mp (hall (i - 1))
        rwa [Nat.sub_add_cancel hlow] at hindex
    omega
  have hbelow : ∀ i, 1 ≤ i → i ≤ Nat.find hmissing → rotable.HasIndex i := by
    intro i hlow hhigh
    have hindex := not_not.mp (Nat.find_min hmissing (m := i - 1) (by omega))
    rwa [Nat.sub_add_cancel hlow] at hindex
  refine ⟨Nat.find hmissing, ?_, Nat.find_spec hmissing, hbelow⟩
  by_contra hlong
  have htoo := rotable.le_length_of_hasIndex (n := rotable.entries.length + 1) (by omega)
    fun i hlow hhigh ↦ hbelow i hlow (by omega)
  omega

/-- The loop that counts, from an integer up to which all are keys. -/
theorem Rotable.runLoop_getnBody {n : ℕ} (hbound : n + 2 < 2 ^ 31)
    (hborder : ¬ rotable.HasIndex (n + 1)) (hall : ∀ i, 1 ≤ i → i ≤ n → rotable.HasIndex i)
    {len : ℕ} (hle : len ≤ n) :
    runLoop (getnBody (some rotable.array)) (n - len + 1) (len + 1, len) = some n := by
  induction hle using Nat.decreasingInduction with
  | self =>
    have hnone : luaRFindentry (some rotable.array) none (.ofNat (n + 1)) = none := by
      rw [← Option.not_isSome_iff_eq_none, ← rotable.hasIndex_iff_findentry]
      exact hborder
    refine runLoop_of_leaves ?_ _
    unfold getnBody
    dsimp only
    rw [if_pos hbound, hnone]
  | of_succ len hlt ih =>
    obtain ⟨found, hfound⟩ := Option.isSome_iff_exists.mp
      ((rotable.hasIndex_iff_findentry (len + 1)).mp (hall (len + 1) (by omega) hlt))
    have hgoes : getnBody (some rotable.array) (len + 1, len) = some (.inl (len + 2, len + 1)) := by
      unfold getnBody
      dsimp only
      rw [if_pos (by omega), hfound]
    have hfuel : n - len = n - (len + 1) + 1 := by omega
    rw [hfuel, runLoop_of_continues hgoes]
    exact ih

/-! ### Rotables read like ordinary tables -/

/-- Every lookup in a rotable is the one in its association list. Iteration from nil visits its keys
and values in order, each once, and ends. The length is the `n` for which the integers from 1 to `n`
are keys and `n + 1` is not. -/
theorem readsLikeTable (N : NumberType) (rotable : Rotable N) :
    (∀ key, KeyInBounds key →
      luaHGetRo (some rotable.array) key = assocLookup rotable.pairs key) ∧
    (∀ ts, KeyInBounds (N := N) (.string ts) →
      luaHGetstrRo (some rotable.array) ts = assocLookup rotable.pairs (.string ts)) ∧
    (∀ key, luaHGetnumRo (some rotable.array) key =
      assocLookup rotable.pairs (.number (N.castNum key))) ∧
    (∃ fuel, runLoop (nextBody rotable.array) fuel (.nil, .nil, []) = some rotable.pairs) ∧
    ∃ n fuel, luaHGetnRo (some rotable.array) fuel = some n ∧ n + 1 < 2 ^ 31 ∧
      (∀ i, 1 ≤ i → i ≤ n →
        assocLookup rotable.pairs (.number (N.castNum (.ofNat i))) ≠ .nil) ∧
      assocLookup rotable.pairs (.number (N.castNum (.ofNat (n + 1)))) = .nil := by
  refine ⟨fun _ hbounds ↦ rotable.luaHGetRo_eq hbounds,
    fun _ hbounds ↦ rotable.luaHGetstrRo_eq hbounds, rotable.luaHGetnumRo_eq, ?_, ?_⟩
  · have hstart : rotable.entries = [] ++ rotable.entries := rfl
    exact ⟨_, rotable.runLoop_nextBody hstart rfl []⟩
  · obtain ⟨n, hle, hborder, hall⟩ := rotable.exists_border
    have hlength := rotable.length_lt
    refine ⟨n, _, rotable.runLoop_getnBody (by omega) hborder hall (Nat.zero_le n), by omega,
      fun i hlow hhigh ↦ ?_, ?_⟩
    · exact (rotable.hasIndex_iff_assocLookup i).mp (hall i hlow hhigh)
    · by_contra hvalue
      exact hborder ((rotable.hasIndex_iff_assocLookup (n + 1)).mpr hvalue)

/-- The rotable `{ a = true, [1] = 2 }` with numbers of type `long`. -/
def smallRotable : Rotable longNumber where
  entries := [⟨.string ⟨[0x61], by decide⟩, .boolean true⟩, ⟨.number 1, .number (2 : Int32)⟩]
  key_ne_nil := by simp
  strings := by
    intro entry hentry strkey hkey
    simp only [List.mem_cons, List.not_mem_nil, or_false] at hentry
    obtain rfl | rfl := hentry
    · obtain rfl := LuaRKey.string.inj hkey
      exact ⟨by decide, by decide⟩
    · cases hkey
  nodup := by decide
  value_ne_nil := by simp
  length_lt := by decide

/-- It has one value for the string and one for the integer, and its length is one. -/
theorem readsLikeTable_smallRotable :
    luaHGetRo (some smallRotable.array) (.string [0x61]) =
        assocLookup smallRotable.pairs (.string [0x61]) ∧
      assocLookup smallRotable.pairs (.string [0x61]) = .boolean true ∧
      luaHGetnumRo (some smallRotable.array) 1 =
        assocLookup smallRotable.pairs (.number (1 : Int32)) ∧
      ∃ fuel, runLoop (nextBody smallRotable.array) fuel (.nil, .nil, []) =
        some smallRotable.pairs := by
  obtain ⟨hget, -, hnum, hnext, -⟩ := readsLikeTable longNumber smallRotable
  exact ⟨hget _ ⟨by decide, by decide, by decide⟩, rfl, hnum 1, hnext⟩

end Elua.Lua
