import Mathlib.Algebra.GroupWithZero.Nat
import Mathlib.Data.Finset.Image
import Mathlib.Data.List.AList
import Mathlib.Data.Set.Function

/-!
# Module selection

The board description selects generic modules and platform modules by lists of items that include
and exclude them. `process_module` takes one item, and `gen_module_list` makes the lists of the
libraries from the modules that are left selected. The tables of the modules are parameters, and so
is the order in which a table is traversed.

`ModulesRight` says that bad items are reported, and that each selected module is listed once. The
error of `process_module` is dropped, the libraries that are not in ROM are only listed for generic
modules, and macros are named in upper case; `modulesRight_iff` is the exact condition. -/

set_option autoImplicit false
set_option relaxedAutoImplicit false

namespace Elua.Config

/-! ### Modules and their tables -/

/-- A name, or another text of the configuration. -/
abbrev Name := List Char

/-- `m:upper()`. -/
def upper (m : Name) : Name := m.map Char.toUpper

/-- `m:lower()`. -/
def lower (m : Name) : Name := m.map Char.toLower

/-- The field `open` of a module: missing, `false`, or the name of a function. -/
inductive OpenField
  | missing
  | no
  | name (openf : Name)
  deriving DecidableEq

/-- What a table says about a module. -/
structure ModuleInfo where
  guards : List Name
  lib : Option Name
  openf : OpenField
  map : Option Name
  deriving DecidableEq

/-- A module without fields. -/
def ModuleInfo.plain : ModuleInfo := ⟨[], none, .missing, none⟩

/-- A table of modules, in the order of a traversal. -/
abbrev ModuleTable := AList fun _ : Name ↦ ModuleInfo

/-- `utils.concat_tables`, which returns the first table. -/
def concatTables (dst src : ModuleTable) : ModuleTable :=
  src.entries.foldl (fun dst entry ↦ dst.insert entry.1 entry.2) dst

/-- `lua_modules`, `elua_generic_modules`, the extra modules and `platform_modules`. -/
structure ModuleTables where
  luaModules : ModuleTable
  eluaGenericModules : ModuleTable
  extraModules : ModuleTable
  platformModules : ModuleTable

/-- `all_generic_modules`, with the extra modules added. -/
def ModuleTables.allGenericModules (tables : ModuleTables) : ModuleTable :=
  concatTables (concatTables (concatTables ∅ tables.luaModules) tables.eluaGenericModules)
    tables.extraModules

/-- The two attributes that select modules. -/
inductive Component
  | generic
  | platform
  deriving DecidableEq

/-- The table that a component is checked against. -/
def ModuleTables.check (tables : ModuleTables) : Component → ModuleTable
  | .generic => tables.allGenericModules
  | .platform => tables.platformModules

/-- What the table says about a module. A selected module is in the table. -/
def ModuleTables.info (tables : ModuleTables) (component : Component) (m : Name) : ModuleInfo :=
  ((tables.check component).lookup m).getD .plain

/-- `get_auxlib`. -/
def getAuxlib (m : Name) (info : ModuleInfo) : Name :=
  info.lib.getD ("AUXLIB_".toList ++ upper m)

/-- `get_openf_name`. -/
def getOpenfName (m : Name) (info : ModuleInfo) : Name :=
  match info.openf with
  | .no => "luaopen_dummy".toList
  | .name openf => openf
  | .missing => "luaopen_".toList ++ lower m

/-- `get_map_name`. -/
def getMapName (m : Name) (info : ModuleInfo) : Name := info.map.getD (lower m ++ "_map".toList)

/-- The map of the modules that cannot be in ROM. -/
def noMap : Name := "<none>".toList

/-! ### process_module -/

/-- The errors of `process_module`, with the module and the element that they name. -/
inductive ModuleError
  | notIncluded (m : Name) (sectname : Component)
  | notFound (m : Name) (sectname : Component)
  | allLua
  | allElua
  deriving DecidableEq

/-- Whether an item excludes, and the name behind its sign. -/
def parseItem : Name → Bool × Name
  | '+' :: name => (false, name)
  | '-' :: name => (true, name)
  | name => (false, name)

/-- The modules that a name stands for. -/
def modlist (tables : ModuleTables) (component : Component) (name : Name) :
    Except ModuleError (List Name) :=
  if name = "all".toList then .ok (tables.check component).keys
  else if name = "all_lua".toList then
    if component = .platform then .error .allLua else .ok tables.luaModules.keys
  else if name = "all_elua".toList then
    if component = .platform then .error .allElua else .ok tables.eluaGenericModules.keys
  else .ok [name]

/-- The loop that takes modules out of the list. -/
def excludeModules (component : Component) :
    List Name → List Name → List Name × Option ModuleError
  | [], l => (l, none)
  | m :: ms, l =>
    if m ∈ l then excludeModules component ms (l.erase m) else (l, some (.notIncluded m component))

/-- The loop that puts modules into the list. -/
def includeModules (check : ModuleTable) (component : Component) :
    List Name → List Name → List Name × Option ModuleError
  | [], l => (l, none)
  | m :: ms, l =>
    if m ∈ check then includeModules check component ms (l.insert m)
    else (l, some (.notFound m component))

/-- `process_module`: the list that it leaves, and its error. -/
def processModule (tables : ModuleTables) (component : Component) (l : List Name) (item : Name) :
    List Name × Option ModuleError :=
  match modlist tables component (parseItem item).2 with
  | .error error => (l, some error)
  | .ok names =>
    if (parseItem item).1 then excludeModules component names l
    else includeModules (tables.check component) component names l

/-! ### generate_data and gen_module_list -/

/-- `_ROM( auxlib, openf, map )`. -/
structure RomLine where
  auxlib : Name
  openf : Name
  map : Name
  deriving DecidableEq

/-- The definition of the line of a module. With guards it stands in an `#if`, with an empty
definition and a warning about the module in the `#else`. -/
structure ModuleLine where
  forModule : Name
  guards : List Name
  macroName : Name
  rom : RomLine
  deriving DecidableEq

/-- An entry of a list of ROM libraries. -/
structure LibEntry where
  forModule : Name
  macroName : Name
  deriving DecidableEq

/-- An entry of `LUA_LIBS_NOLTR`. -/
structure NoltrEntry where
  component : Component
  forModule : Name
  auxlib : Name
  openf : Name
  deriving DecidableEq

/-- What `generate_data` makes: the lines of the modules, and the list of the ROM libraries. -/
structure ModuleData where
  lines : List ModuleLine
  libsRom : List LibEntry
  deriving DecidableEq

/-- The prefix of the macros. -/
def macroPrefix : Component → Name
  | .generic => []
  | .platform => "PL_".toList

/-- `MODULE_x_LINE`. -/
def moduleMacro (component : Component) (m : Name) : Name :=
  macroPrefix component ++ "MODULE_".toList ++ upper m ++ "_LINE".toList

/-- The module has a map. -/
def Mapped (tables : ModuleTables) (component : Component) (m : Name) : Prop :=
  getMapName m (tables.info component m) ≠ noMap

instance (tables : ModuleTables) (component : Component) (m : Name) :
    Decidable (Mapped tables component m) := inferInstanceAs (Decidable (_ ≠ _))

/-- The definition of the line of a module. -/
def moduleLine (tables : ModuleTables) (component : Component) (m : Name) : ModuleLine :=
  let info := tables.info component m
  ⟨m, info.guards, moduleMacro component m,
    ⟨getAuxlib m info, getOpenfName m info, getMapName m info⟩⟩

/-- `generate_data`, for the modules in the order of a traversal. -/
def generateData (tables : ModuleTables) (component : Component) (modules : List Name) :
    ModuleData :=
  let mapped := modules.filter (Mapped tables component ·)
  ⟨mapped.map (moduleLine tables component), mapped.map fun m ↦ ⟨m, moduleMacro component m⟩⟩

/-- `PLATFORM_MODULES_LINE`: empty, with the name of its table, or for the guards of the modules,
with the names of the table there and in `PS_LIB_TABLE_NAME`. -/
inductive PlatformLine
  | none
  | always (pltabname : Name)
  | guarded (guards : List (List Name)) (platform pltabname : Name)
  deriving DecidableEq

/-- The definition of `PLATFORM_MODULES_LINE`. -/
def platformLine (tables : ModuleTables) (platform pltabname : Name) (modules : List Name) :
    PlatformLine :=
  let guards := modules.map fun m ↦ (tables.info .platform m).guards
  let nguards := (guards.map List.length).sum
  if modules = [] then .none
  else if nguards = 0 ∨ nguards < modules.length then .always pltabname
  else .guarded (guards.filter (· ≠ [])) platform pltabname

/-- What `gen_module_list` makes of the modules. -/
structure ModuleHeader where
  platformLine : PlatformLine
  data : Component → Option ModuleData
  noltr : List NoltrEntry

/-- An attribute of `modules`. -/
inductive Attribute
  | missing
  | single (item : Name)
  | table (items : List Name)

/-- The items of an attribute. -/
def Attribute.items : Attribute → List Name
  | .missing => []
  | .single item => [item]
  | .table items => items

/-- `desc.modules`. -/
inductive ModulesDesc
  | missing
  | all
  | lists (generic platform : Attribute) (platformName : Option Name)

/-- The items for a component. -/
def ModulesDesc.items : ModulesDesc → Component → List Name
  | .missing, _ => []
  | .all, _ => ["all".toList]
  | .lists generic _ _, .generic => generic.items
  | .lists _ platform _, .platform => platform.items

/-- The name of the table of the platform modules. -/
def ModulesDesc.pltabname (desc : ModulesDesc) (platform : Name) : Name :=
  match desc with
  | .lists _ _ (some platformName) => platformName
  | _ => platform

/-- The list that the items of a component lead to. Nobody looks at the errors. -/
def genList (tables : ModuleTables) (component : Component) (items : List Name) : List Name :=
  items.foldl (fun l item ↦ (processModule tables component l item).1) []

/-- `gen_module_list`, where `pairs` tells the order in which a list of modules is traversed. There
is no header if there are no modules; it never returns `false`. -/
def genModuleList (pairs : List Name → List Name) (tables : ModuleTables) (desc : ModulesDesc)
    (platform : Name) : Except ModuleError (Option ModuleHeader) :=
  let modules := fun component ↦ pairs (genList tables component (desc.items component))
  .ok <|
    if modules .generic = [] ∧ modules .platform = [] then none
    else some
      { platformLine :=
          platformLine tables platform (desc.pltabname platform) (modules .platform)
        data := fun component ↦
          if modules component = [] then none
          else some (generateData tables component (modules component))
        noltr := ((modules .generic).filter (¬Mapped tables .generic ·)).map fun m ↦
          ⟨.generic, m, getAuxlib m (tables.info .generic m),
            getOpenfName m (tables.info .generic m)⟩ }

/-! ### What a selection owes -/

/-- The modules that are selected behind an item. -/
def select (tables : ModuleTables) (component : Component) (selected : Finset Name) (item : Name) :
    Finset Name :=
  match modlist tables component (parseItem item).2 with
  | .error _ => selected
  | .ok names =>
    if (parseItem item).1 then selected \ names.toFinset else selected ∪ names.toFinset

/-- The modules that are selected behind all items. -/
def selectAll (tables : ModuleTables) (component : Component) (items : List Name) : Finset Name :=
  items.foldl (select tables component) ∅

/-- An item names modules that are known, or, if it excludes them, that are included. -/
def GoodItem (tables : ModuleTables) (component : Component) (selected : Finset Name)
    (item : Name) : Prop :=
  ∃ names, modlist tables component (parseItem item).2 = .ok names ∧
    if (parseItem item).1 then ∀ m ∈ names, m ∈ selected
    else ∀ m ∈ names, m ∈ tables.check component

/-- Every item is good at its point. -/
def AllGood (tables : ModuleTables) (desc : ModulesDesc) (component : Component) : Prop :=
  ∀ before item after, desc.items component = before ++ item :: after →
    GoodItem tables component (selectAll tables component before) item

/-- The modules that a description selects. -/
def ModulesDesc.selected (desc : ModulesDesc) (tables : ModuleTables) (component : Component) :
    Finset Name := selectAll tables component (desc.items component)

/-- The data of a component in a header. -/
def headerData (header : Option ModuleHeader) (component : Component) : ModuleData :=
  (header.bind fun header ↦ header.data component).getD ⟨[], []⟩

/-- The modules that are not in ROM in a header. -/
def headerNoltr (header : Option ModuleHeader) : List NoltrEntry :=
  (header.map fun header ↦ header.noltr).getD []

/-- The selected modules with a map are those in the list of the ROM libraries, each once, and the
macro of each is defined once, as the line of the module. The others are those in the list of
libraries that are not in ROM, each once. -/
structure Listed (tables : ModuleTables) (component : Component) (selected : Finset Name)
    (header : Option ModuleHeader) : Prop where
  in_rom : ∀ m ∈ selected, Mapped tables component m →
    (headerData header component).libsRom.count ⟨m, moduleMacro component m⟩ = 1 ∧
    (headerData header component).lines.filter (fun line ↦
      line.macroName = moduleMacro component m) = [moduleLine tables component m]
  no_other_in_rom : ∀ entry ∈ (headerData header component).libsRom,
    ∃ m ∈ selected, Mapped tables component m ∧ entry = ⟨m, moduleMacro component m⟩
  not_in_rom : ∀ m ∈ selected, ¬Mapped tables component m →
    (headerNoltr header).count ⟨component, m, getAuxlib m (tables.info component m),
      getOpenfName m (tables.info component m)⟩ = 1
  no_other_not_in_rom : ∀ entry ∈ headerNoltr header, entry.component = component →
    ∃ m ∈ selected, ¬Mapped tables component m ∧
      entry = ⟨component, m, getAuxlib m (tables.info component m),
        getOpenfName m (tables.info component m)⟩

/-- Generating the lists fails exactly if an item is bad, and otherwise lists the selected
modules. -/
structure ModulesRight (tables : ModuleTables) (desc : ModulesDesc)
    (result : Except ModuleError (Option ModuleHeader)) : Prop where
  fails_iff : (∃ error, result = .error error) ↔ ¬∀ component, AllGood tables desc component
  listed : ∀ header, result = .ok header → ∀ component,
    Listed tables component (desc.selected tables component) header

/-- All items are good, the selected platform modules have maps, and no two selected modules with
maps have names that differ in case only. -/
structure ModulesGranted (tables : ModuleTables) (desc : ModulesDesc) : Prop where
  good : ∀ component, AllGood tables desc component
  mapped : ∀ m ∈ desc.selected tables .platform, Mapped tables .platform m
  apart : ∀ component, Set.InjOn upper
    {m | m ∈ desc.selected tables component ∧ Mapped tables component m}

/-! ### Processing items -/

section Items

variable {tables : ModuleTables} {component : Component} {l ms names items : List Name}
  {item : Name} {check : ModuleTable}

/-- Taking out modules that are all in the list. -/
theorem excludeModules_spec (hms : ms.Nodup) (hl : l.Nodup) (hsub : ∀ m ∈ ms, m ∈ l) :
    (excludeModules component ms l).1.Nodup ∧
      ∀ m, m ∈ (excludeModules component ms l).1 ↔ m ∈ l ∧ m ∉ ms := by
  induction ms generalizing l with
  | nil => exact ⟨hl, fun m ↦ (and_iff_left List.not_mem_nil).symm⟩
  | cons first ms ih =>
    obtain ⟨hfirst, hms⟩ := List.nodup_cons.mp hms
    rw [excludeModules, if_pos (hsub first List.mem_cons_self)]
    have hrest : ∀ m ∈ ms, m ∈ l.erase first := by
      intro m hm
      have hne : m ≠ first := fun heq ↦ hfirst (heq ▸ hm)
      exact (List.mem_erase_of_ne hne).mpr (hsub m (List.mem_cons_of_mem first hm))
    obtain ⟨hnodup, hmem⟩ := ih hms (hl.erase first) hrest
    refine ⟨hnodup, fun m ↦ ?_⟩
    rw [hmem, hl.mem_erase_iff, List.mem_cons, not_or]
    tauto

/-- Putting in modules that are all known. -/
theorem includeModules_spec (hl : l.Nodup) (hknown : ∀ m ∈ ms, m ∈ check) :
    (includeModules check component ms l).1.Nodup ∧
      ∀ m, m ∈ (includeModules check component ms l).1 ↔ m ∈ l ∨ m ∈ ms := by
  induction ms generalizing l with
  | nil => exact ⟨hl, fun m ↦ (or_iff_left List.not_mem_nil).symm⟩
  | cons first ms ih =>
    obtain ⟨hfirst, hrest⟩ := List.forall_mem_cons.mp hknown
    rw [includeModules, if_pos hfirst]
    obtain ⟨hnodup, hmem⟩ := ih hl.insert hrest
    refine ⟨hnodup, fun m ↦ ?_⟩
    rw [hmem, List.mem_insert_iff, List.mem_cons]
    tauto

/-- A name stands for each of its modules once. -/
theorem nodup_of_modlist {name : Name} (hnames : modlist tables component name = .ok names) :
    names.Nodup := by
  unfold modlist at hnames
  split_ifs at hnames <;> obtain rfl := Except.ok.inj hnames
  · exact AList.keys_nodup _
  · exact AList.keys_nodup _
  · exact AList.keys_nodup _
  · exact List.nodup_singleton name

/-- A good item selects what it should. -/
theorem processModule_spec (hl : l.Nodup) (hgood : GoodItem tables component l.toFinset item) :
    (processModule tables component l item).1.Nodup ∧
      (processModule tables component l item).1.toFinset =
        select tables component l.toFinset item := by
  obtain ⟨names, hnames, hitem⟩ := hgood
  unfold processModule select
  rw [hnames]
  dsimp only
  split_ifs at hitem ⊢
  · have hsub : ∀ m ∈ names, m ∈ l := fun m hm ↦ List.mem_toFinset.mp (hitem m hm)
    obtain ⟨hnodup, hmem⟩ :=
      @excludeModules_spec component l names (nodup_of_modlist hnames) hl hsub
    refine ⟨hnodup, Finset.ext fun m ↦ ?_⟩
    rw [List.mem_toFinset, hmem, Finset.mem_sdiff, List.mem_toFinset, List.mem_toFinset]
  · obtain ⟨hnodup, hmem⟩ := @includeModules_spec component l names _ hl hitem
    refine ⟨hnodup, Finset.ext fun m ↦ ?_⟩
    rw [List.mem_toFinset, hmem, Finset.mem_union, List.mem_toFinset, List.mem_toFinset]

/-- Good items select what they should. -/
theorem genList_spec (hgood : ∀ before item after, items = before ++ item :: after →
      GoodItem tables component (selectAll tables component before) item) :
    (genList tables component items).Nodup ∧
      (genList tables component items).toFinset = selectAll tables component items := by
  induction items using List.reverseRecOn with
  | nil => exact ⟨List.nodup_nil, rfl⟩
  | append_singleton items last ih =>
    have hrest : ∀ before item after, items = before ++ item :: after →
        GoodItem tables component (selectAll tables component before) item := by
      rintro before item after rfl
      exact hgood before item (after ++ [last]) (by rw [List.append_assoc, List.cons_append])
    obtain ⟨hnodup, hselected⟩ := ih hrest
    have hlast := hgood items last [] rfl
    rw [← hselected] at hlast
    obtain ⟨hnodup', hselected'⟩ := processModule_spec hnodup hlast
    unfold genList selectAll at *
    rw [List.foldl_append, List.foldl_append]
    exact ⟨hnodup', hselected'.trans (by rw [hselected]; rfl)⟩

end Items

/-! ### The lists -/

section Lists

variable {pairs : List Name → List Name} {tables : ModuleTables} {desc : ModulesDesc}
  {platform : Name} {component : Component} {modules : List Name} {selected : Finset Name}

/-- The header has the data of each component, also where there is none. -/
theorem headerData_genModuleList {header : Option ModuleHeader}
    (hheader : genModuleList pairs tables desc platform = .ok header) (component : Component) :
    headerData header component = generateData tables component
      (pairs (genList tables component (desc.items component))) := by
  obtain rfl := Except.ok.inj hheader
  unfold headerData
  dsimp only
  split_ifs with hnone
  · cases component with
    | generic => rw [hnone.1]; rfl
    | platform => rw [hnone.2]; rfl
  · rw [Option.bind_some]
    dsimp only
    split_ifs with hempty
    · rw [hempty]
      rfl
    · rfl

theorem headerNoltr_genModuleList {header : Option ModuleHeader}
    (hheader : genModuleList pairs tables desc platform = .ok header) :
    headerNoltr header = ((pairs (genList tables .generic (desc.items .generic))).filter
      (¬Mapped tables .generic ·)).map fun m ↦
        ⟨.generic, m, getAuxlib m (tables.info .generic m),
          getOpenfName m (tables.info .generic m)⟩ := by
  obtain rfl := Except.ok.inj hheader
  unfold headerNoltr
  dsimp only
  split_ifs with hnone
  · rw [hnone.1]
    rfl
  · rfl

theorem moduleMacro_eq_iff {first second : Name} :
    moduleMacro component first = moduleMacro component second ↔ upper first = upper second := by
  unfold moduleMacro
  rw [List.append_left_inj, List.append_right_inj]

/-- In a list without repetitions one module passes a test that only it passes. -/
theorem filter_eq_singleton {m : Name} {test : Name → Prop} [DecidablePred test]
    (hnodup : modules.Nodup) (hmem : m ∈ modules)
    (htest : ∀ other ∈ modules, test other ↔ other = m) :
    modules.filter (test ·) = [m] := by
  have hsame : modules.filter (test ·) = modules.filter (· = m) :=
    List.filter_congr fun other hother ↦ decide_eq_decide.mpr (htest other hother)
  rw [hsame, List.filter_eq, List.count_eq_one_of_mem hnodup hmem]
  rfl

/-- The lists of a component, for modules in any order. -/
theorem listed_generateData {header : Option ModuleHeader} (hnodup : modules.Nodup)
    (hselected : ∀ m, m ∈ modules ↔ m ∈ selected)
    (hdata : headerData header component = generateData tables component modules)
    (hapart : Set.InjOn upper {m | m ∈ selected ∧ Mapped tables component m}) :
    (∀ m ∈ selected, Mapped tables component m →
      (headerData header component).libsRom.count ⟨m, moduleMacro component m⟩ = 1 ∧
      (headerData header component).lines.filter (fun line ↦
        line.macroName = moduleMacro component m) = [moduleLine tables component m]) ∧
    ∀ entry ∈ (headerData header component).libsRom,
      ∃ m ∈ selected, Mapped tables component m ∧ entry = ⟨m, moduleMacro component m⟩ := by
  have hmapped : ∀ m, m ∈ modules.filter (Mapped tables component ·) ↔
      m ∈ selected ∧ Mapped tables component m := by
    intro m
    rw [List.mem_filter, hselected, decide_eq_true_eq]
  have hnodup' := hnodup.filter (Mapped tables component ·)
  rw [hdata]
  unfold generateData
  dsimp only
  refine ⟨fun m hm hmap ↦ ⟨?_, ?_⟩, fun entry hentry ↦ ?_⟩
  · refine List.count_eq_one_of_mem (hnodup'.map ?_)
      (List.mem_map_of_mem ((hmapped m).mpr ⟨hm, hmap⟩))
    exact fun first second heq ↦ congrArg LibEntry.forModule heq
  · rw [List.filter_map]
    have hone := @filter_eq_singleton (modules.filter (Mapped tables component ·)) m
      (fun other ↦ moduleMacro component other = moduleMacro component m) _ hnodup'
      ((hmapped m).mpr ⟨hm, hmap⟩) fun other hother ↦ by
        rw [moduleMacro_eq_iff]
        exact ⟨fun heq ↦ hapart ((hmapped other).mp hother) ⟨hm, hmap⟩ heq, congrArg upper⟩
    exact congrArg (List.map (moduleLine tables component)) hone
  · obtain ⟨m, hm, rfl⟩ := List.mem_map.mp hentry
    obtain ⟨hm, hmap⟩ := (hmapped m).mp hm
    exact ⟨m, hm, hmap, rfl⟩

/-- For all tables of modules, all items and every order of traversal: bad items are reported and
each selected module is listed once exactly if no item is bad, the selected platform modules have
maps, and the names of the selected modules with maps do not differ in case only. -/
theorem modulesRight_iff (hpairs : ∀ modules, (pairs modules).Perm modules) :
    ModulesRight tables desc (genModuleList pairs tables desc platform) ↔
      ModulesGranted tables desc := by
  obtain ⟨header, hheader⟩ : ∃ header, genModuleList pairs tables desc platform = .ok header :=
    ⟨_, rfl⟩
  have hsucceeds : ¬∃ error, genModuleList pairs tables desc platform = .error error := by
    rintro ⟨error, herror⟩
    cases hheader.symm.trans herror
  have hnoltr := headerNoltr_genModuleList hheader
  constructor
  · intro hright
    have hgood : ∀ component, AllGood tables desc component :=
      not_not.mp fun hbad ↦ hsucceeds (hright.fails_iff.mpr hbad)
    refine ⟨hgood, fun m hm ↦ ?_, ?_⟩
    · by_contra hmap
      have hcount := (hright.listed header hheader .platform).not_in_rom m hm hmap
      have hmem := List.count_pos_iff.mp (hcount ▸ Nat.one_pos)
      rw [hnoltr] at hmem
      obtain ⟨other, -, heq⟩ := List.mem_map.mp hmem
      have hcomponent : Component.generic = .platform := congrArg NoltrEntry.component heq
      cases hcomponent
    · rintro component first ⟨hfirst, hfirstMap⟩ second ⟨hsecond, hsecondMap⟩ hupper
      have hlisted := hright.listed header hheader component
      have hlines := (hlisted.in_rom first hfirst hfirstMap).2
      rw [moduleMacro_eq_iff.mpr hupper, (hlisted.in_rom second hsecond hsecondMap).2] at hlines
      exact (congrArg ModuleLine.forModule (List.head_eq_of_cons_eq hlines)).symm
  · rintro ⟨hgood, hmapped, hapart⟩
    refine ⟨iff_of_false hsucceeds (not_not.mpr hgood), fun other hother component ↦ ?_⟩
    obtain rfl := Except.ok.inj (hheader.symm.trans hother)
    have hmodules : ∀ component,
        (pairs (genList tables component (desc.items component))).Nodup ∧
          ∀ m, m ∈ pairs (genList tables component (desc.items component)) ↔
            m ∈ desc.selected tables component := by
      intro component
      obtain ⟨hnodup, hselected⟩ := genList_spec (hgood component)
      refine ⟨(hpairs _).nodup_iff.mpr hnodup, fun m ↦ ?_⟩
      unfold ModulesDesc.selected
      rw [(hpairs _).mem_iff, ← hselected, List.mem_toFinset]
    obtain ⟨hnodup, hmem⟩ := hmodules component
    obtain ⟨hin, hno⟩ := listed_generateData hnodup hmem
      (headerData_genModuleList hheader component) (hapart component)
    refine ⟨hin, hno, fun m hm hmap ↦ ?_, fun entry hentry hcomponent ↦ ?_⟩
    · cases component with
      | platform => exact absurd (hmapped m hm) hmap
      | generic =>
        rw [hnoltr]
        refine List.count_eq_one_of_mem ((hnodup.filter _).map ?_) (List.mem_map.mpr ⟨m, ?_, rfl⟩)
        · exact fun first second heq ↦ congrArg NoltrEntry.forModule heq
        · exact List.mem_filter.mpr ⟨(hmem m).mpr hm, decide_eq_true hmap⟩
    · rw [hnoltr] at hentry
      obtain ⟨m, hm, rfl⟩ := List.mem_map.mp hentry
      obtain rfl : Component.generic = component := hcomponent
      obtain ⟨hm, hmap⟩ := List.mem_filter.mp hm
      exact ⟨m, (hmem m).mp hm, of_decide_eq_true hmap, rfl⟩

end Lists

/-! ### A board -/

/-- Modules without guards, libraries or functions of their own. -/
def plainModules (names : List String) : ModuleTable :=
  (names.map fun name ↦ (⟨name.toList, .plain⟩ : Σ _ : Name, ModuleInfo)).toAList

/-- Some of the generic modules, and one of a platform. -/
def someTables : ModuleTables where
  luaModules := [⟨"lua_io".toList, [], some "LUA_IOLIBNAME".toList, .name "luaopen_io".toList,
    some noMap⟩, ⟨"lua_math".toList, [], some "LUA_MATHLIBNAME".toList,
      .name "luaopen_math".toList, some "math_map".toList⟩].toAList
  eluaGenericModules := plainModules ["bit", "cpu", "elua", "pack", "pd"]
  extraModules := ∅
  platformModules := plainModules ["disp"]

/-- The description `all` selects the modules of the tables. -/
theorem selected_all (tables : ModuleTables) (component : Component) :
    ModulesDesc.all.selected tables component = (tables.check component).keys.toFinset :=
  Finset.empty_union _

/-- All modules are selected. -/
theorem modulesRight_iff_all :
    ModulesRight someTables .all (genModuleList id someTables .all "lm3s".toList) := by
  have hapart : ∀ component, ∀ first ∈ (someTables.check component).keys,
      ∀ second ∈ (someTables.check component).keys, upper first = upper second →
        first = second := by
    intro component
    cases component <;> decide
  refine (modulesRight_iff List.Perm.refl).mpr ⟨fun component ↦ ?_, fun m hm ↦ ?_, ?_⟩
  · rintro before item after hitems
    obtain ⟨rfl, hitem⟩ | ⟨-, hitem⟩ := List.singleton_eq_append_iff.mp hitems
    · obtain rfl := (List.cons.inj hitem).1
      exact ⟨(someTables.check component).keys, rfl, fun m hm ↦ AList.mem_keys.mpr hm⟩
    · cases hitem
  · rw [selected_all, List.mem_toFinset] at hm
    revert m
    decide
  · rintro component first ⟨hfirst, -⟩ second ⟨hsecond, -⟩ hupper
    rw [selected_all, List.mem_toFinset] at hfirst hsecond
    exact hapart component first hfirst second hsecond hupper

/-- An unknown module is passed over without a word. -/
theorem not_modulesRight_unknown :
    ¬ModulesRight someTables (.lists (.table ["pd".toList, "dp".toList]) .missing none)
      (genModuleList id someTables (.lists (.table ["pd".toList, "dp".toList]) .missing none)
        "lm3s".toList) := by
  intro hright
  have hsucceeds : ¬∃ error, genModuleList id someTables
      (.lists (.table ["pd".toList, "dp".toList]) .missing none) "lm3s".toList = .error error := by
    rintro ⟨error, herror⟩
    cases herror
  refine hsucceeds (hright.fails_iff.mpr fun hgood ↦ ?_)
  obtain ⟨names, hnames, hknown⟩ := hgood .generic ["pd".toList] "dp".toList [] rfl
  obtain rfl := Except.ok.inj hnames
  exact absurd (hknown "dp".toList List.mem_cons_self) (by decide)

end Elua.Config
