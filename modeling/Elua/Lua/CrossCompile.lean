import Elua.Lua.DumpFailures
import Elua.Lua.UndumpReads

/-!
# Cross-compiled chunks load back

`luac` dumps a function that the compiler of the host has made (`Compiled`), and a machine of the
target loads it, from a stream with buffers of any size or in direct mode from the memory at the
base address. `LoadsBack` says that this takes just the bytes of the chunk and rebuilds a given
prototype, with every array that is left in place on a multiple of four. `loadsBack_of_dump` shows
it for what the dump keeps of the function, with the numbers of the target.

The two sides meet in the layout of the chunk: a dump with status zero has written it
(`output_of_dump`), and a load takes it off the stream (`reads_loadFunction`). Integers of eight
bytes have no bytes in that layout: `DumpIntWithSize` has no case for them, and `luac` refuses the
size. A load also needs one C call for each level of nested functions, on top of those that are
active when it starts.
-/

set_option autoImplicit false
set_option relaxedAutoImplicit false

namespace Elua.Lua

open Elua.Foundation Layout

/-! ### Chunks that load back -/

/-- What the compiler sees to in every function: it has a source, and lines and positions in the
code are not negative. -/
structure FunctionBody.Compiled {Number : Type} (f : FunctionBody Number) : Prop where
  source : f.source ≠ none
  nonNegative : f.NonNegative

/-- A chunk loads back as a prototype: whatever follows it, in whatever buffers the reader delivers
it, and whether or not it is at the base address of direct mode, `luaU_undump` takes the bytes of
the chunk and no others, and returns the prototype; the arrays that it leaves in place are at
offsets that are multiples of four. -/
def LoadsBack (m : Machine) (checkcode : Proto TargetNumber → Bool) (nCcalls : ℕ)
    (chunk : List UInt8) (f : Proto TargetNumber) : Prop :=
  ∀ (name : String) (reader : List (List UInt8)) (base : Option (List UInt8)) (rest : List UInt8),
    delivered reader = chunk ++ rest → (∀ memory, base = some memory → memory = chunk ++ rest) →
    ∃ S, luaUUndump m checkcode name nCcalls (luaZInit reader base) = .ok (f, S) ∧
      S.zio.content = rest ∧ S.zio.i = chunk.length ∧ ∀ offset ∈ S.offsets, offset % 4 = 0

section RoundTrip

variable {Number : Type} {D : Dumper Number} {m : Machine} {checkcode : Proto TargetNumber → Bool}
  {f : Proto Number} {strip : Bool}

/-- What a dump keeps of a compiled function still is what the compiler sees to. -/
theorem FunctionBody.Compiled.kept {f : FunctionBody Number} (hcompiled : f.Compiled) :
    (f.kept strip).Compiled := by
  cases strip with
  | false => exact hcompiled
  | true =>
    exact
      { source := Option.some_ne_none _
        nonNegative :=
          { linedefined := hcompiled.nonNegative.linedefined
            lastlinedefined := hcompiled.nonNegative.lastlinedefined
            locvars := fun locvar hmem ↦ absurd hmem List.not_mem_nil } }

/-- The functions of what is kept of a prototype are what is kept of its functions. -/
theorem forall_functions_kept {P : Proto Number → Prop} :
    (∀ g ∈ (f.kept strip).functions, P g) ↔ ∀ g ∈ f.functions, P (g.kept strip) := by
  unfold Proto.kept
  rw [Proto.functions_map, List.forall_mem_map]

/-- The functions that a dump keeps of a compiled prototype are loadable where the dump has found
their integers in range. -/
theorem loadable_kept {name : String} (hcompiled : ∀ g ∈ f.functions, g.body.Compiled)
    (hstrings : ∀ g ∈ (f.kept strip).functions, g.body.StringsFit m.stringLimit)
    (hnumbers : m.format = .int64 → ∀ g ∈ f.functions, ∀ x, .number x ∉ g.body.k)
    (hcode : ∀ g ∈ (f.kept strip).functions, checkcode (g.convert D.host m.format) = true)
    (hints : ∀ g ∈ (f.kept strip).functions, g.IntsFit) :
    ∀ g ∈ (f.kept strip).functions, Loadable ⟨m, name, checkcode⟩ D.host g := by
  rw [forall_functions_kept] at hstrings hcode hints ⊢
  intro g hmem
  have hkept : (g.kept strip).body.Compiled := by
    unfold Proto.kept
    rw [Proto.body_map]
    exact (hcompiled g hmem).kept
  refine
    { ints := hints g hmem
      nonNegative := hkept.nonNegative
      strings := hstrings g hmem
      source := hkept.source
      numbers := fun hint64 x ↦ ?_
      code := hcode g hmem }
  unfold Proto.kept
  rw [Proto.body_map, kept_k]
  exact hnumbers hint64 g hmem x

/-- The source dumped for the function at the root makes the loader find the one that is kept. -/
theorem source_of_root (hsource : f.body.source ≠ none) :
    (if (if f.body.source = none ∨ strip then none else f.body.source) = none then unknownSource
      else if f.body.source = none ∨ strip then none else f.body.source) =
        (f.kept strip).body.source := by
  unfold Proto.kept
  rw [Proto.body_map]
  cases strip with
  | true =>
    have hstripped : f.body.source = none ∨ true = true := .inr rfl
    rw [if_pos hstripped, if_pos rfl]
    rfl
  | false =>
    have hnot : ¬(f.body.source = none ∨ false = true) := by simpa using hsource
    rw [if_neg hnot, if_neg hsource]
    rfl

/-- The layout of a chunk behind a header is loaded back. -/
theorem loadsBack_of_layout {nCcalls : ℕ} {g : Proto Number} {source : TString}
    {host : Host Number}
    (hsource : (if source = none then unknownSource else source) = g.body.source)
    (hdepth : g.depth ≤ luaiMaxccalls - nCcalls)
    (hloadable : ∀ name, ∀ h ∈ g.functions, Loadable ⟨m, name, checkcode⟩ host h) :
    LoadsBack m checkcode nCcalls
      (headerBytes m.target ++
        functionLayout m.littleEndian (host.numberBytes m) source g 12)
      (g.convert host m.format) := by
  intro name reader base rest hreader hbase
  let L : Loader := ⟨m, chunkName name, checkcode⟩
  have hstart : (luaZInit reader base).content =
      luaUHeader m ++ (functionLayout m.littleEndian (host.numberBytes m) source g 12 ++ rest) := by
    change delivered reader = _
    rw [hreader, List.append_assoc]
    rfl
  have himage : ∀ memory, (luaZInit reader base).base = some memory →
      (luaZInit reader base).content = memory := by
    intro memory hmemory
    rw [hbase memory hmemory]
    exact hreader
  obtain ⟨behind, hheader, hready, hrest, hi⟩ := @loadHeader_own L
    { zio := luaZInit reader base, swap := false, numsize := 0, toflt := false, total := 0,
      offsets := [] } _ rfl rfl himage hstart
  rw [← hi] at hrest
  obtain ⟨after, hload, hafter, hrest', hi'⟩ :=
    reads_loadFunction g (luaiMaxccalls - nCcalls) unknownSource source hsource hdepth
      (hloadable (chunkName name)) behind rest hready hrest
  refine ⟨after, ?_, hrest', ?_, hafter.offsets⟩
  · have hrun := (@load_bind_ok _ _ _ (fun _ ↦ loadFunction L (luaiMaxccalls - nCcalls)
      unknownSource) _ _ _ hheader).trans hload
    rw [bind_assoc] at hrun
    exact hrun
  · rw [hi', hi, List.length_append]
    rfl

variable {nCcalls : ℕ} {output : List UInt8}

/-- A chunk that `luaU_dump_crosscompile` has written without an error loads back on a machine of
the target as what the dump keeps of the function, with the numbers of the target. -/
theorem loadsBack_of_dump (htarget : D.target = m.target)
    (hnative : D.host.integral = true → m.format.integral = true)
    (hcompiled : ∀ g ∈ f.functions, g.body.Compiled)
    (hnumbers : m.format = .int64 → ∀ g ∈ f.functions, ∀ x, .number x ∉ g.body.k)
    (hstrings : ∀ g ∈ (f.kept D.strip).functions, g.body.StringsFit m.stringLimit)
    (hdepth : f.depth ≤ luaiMaxccalls - nCcalls)
    (hcode : ∀ g ∈ (f.kept D.strip).functions, checkcode (g.convert D.host m.format) = true)
    (hdump : luaUDumpCrosscompile D f = some (0, output)) :
    LoadsBack m checkcode nCcalls output ((f.kept D.strip).convert D.host m.format) := by
  obtain ⟨houtput, hints⟩ :=
    output_of_dump htarget hnative (stringLimit_lt m) hstrings hdump
  have hroot : f.body.source ≠ none := by
    cases f
    rw [Proto.functions, List.forall_mem_cons] at hcompiled
    exact hcompiled.1.source
  have hkept : (f.kept D.strip).depth ≤ luaiMaxccalls - nCcalls := by
    unfold Proto.kept
    rwa [Proto.depth_map]
  rw [houtput]
  exact loadsBack_of_layout (source_of_root hroot) hkept fun name ↦
    loadable_kept hcompiled hstrings hnumbers hcode hints

/-- A chunk that is not accepted from a reader with a single buffer does not load back. -/
theorem not_loadsBack_of_error {chunk : List UInt8} {g : Proto TargetNumber}
    (herror : (luaUUndump m checkcode "" nCcalls (luaZInit [chunk] none)).isOk = false) :
    ¬LoadsBack m checkcode nCcalls chunk g := by
  intro hloads
  have hreader : delivered [chunk] = chunk ++ [] := by
    cases chunk with
    | nil => rfl
    | cons byte chunk => rfl
  obtain ⟨S, hload, -⟩ := hloads "" [chunk] none [] hreader fun memory hmemory ↦ nomatch hmemory
  rw [hload] at herror
  exact nomatch herror

/-- No chunk loads back where the C calls are used up. -/
theorem not_loadsBack_of_calls {chunk : List UInt8} {g : Proto TargetNumber}
    (hcalls : luaiMaxccalls ≤ nCcalls) : ¬LoadsBack m checkcode nCcalls chunk g := by
  apply not_loadsBack_of_error
  unfold luaUUndump
  rw [Nat.sub_eq_zero_of_le hcalls]
  change (loadHeader ⟨m, chunkName "", checkcode⟩ _ >>= fun result ↦
    loadFunction ⟨m, chunkName "", checkcode⟩ 0 unknownSource
      { result.2 with total := 0 }).isOk = false
  cases loadHeader ⟨m, chunkName "", checkcode⟩
      { zio := luaZInit [chunk] none, swap := false, numsize := 0, toflt := false, total := 0,
        offsets := [] } with
  | error message => rfl
  | ok result => rfl

end RoundTrip

section Tests

/-- A big endian machine with integral numbers. -/
def integralMachine (format : NumberFormat) : Machine where
  littleEndian := false
  format := format
  isArmFpa := false
  wide := false
  signedChar := true

/-- A dump for a machine to a writer that takes everything. -/
def dumperFor (host : Host ℕ) (m : Machine) : Dumper ℕ where
  host := host
  writer := fun _ ↦ 0
  strip := false
  target := m.target

/-- A little endian cross-compiler. -/
def littleHost : Host ℕ := crossHost true (fun _ ↦ 0) (fun _ ↦ 0) fun _ ↦ 0

/-- `return 1` in line 1 of a file. -/
def innerFunction : Proto ℕ :=
  .mk ⟨some [0x40, 0x66], 1, 1, 0, 0, 0, 2, [0x00000001, 0x0100001E, 0x0080001E],
    [.number 0x3FF0000000000000], [1, 1, 1], [], []⟩ []

/-- A file that defines the local function `innerFunction` and nothing else. -/
def outerFunction : Proto ℕ :=
  .mk ⟨some [0x40, 0x66], 0, 0, 0, 0, 2, 2, [0x00000024, 0x0080001E], [], [1, 1],
    [⟨some [0x66], 1, 2⟩], []⟩ [innerFunction]

/-- Both functions of the file are what the compiler makes. -/
theorem compiled_outerFunction : ∀ g ∈ outerFunction.functions, g.body.Compiled := by
  intro g hmem
  change g ∈ [outerFunction, innerFunction] at hmem
  rw [List.mem_cons, List.mem_singleton] at hmem
  rcases hmem with rfl | rfl <;>
    exact ⟨Option.some_ne_none _, ⟨by decide, by decide, by decide⟩⟩

theorem stringsFit_outerFunction : ∀ g ∈ (outerFunction.kept false).functions,
    g.body.StringsFit (integralMachine .int32).stringLimit := by
  have hshort : ∀ s : List UInt8, s.length + 1 ≤ 3 →
      StringFits (integralMachine .int32).stringLimit (some s) := by
    rintro s hlength bytes ⟨⟩
    exact hlength.trans (by decide)
  intro g hmem
  change g ∈ [outerFunction, innerFunction] at hmem
  rw [List.mem_cons, List.mem_singleton] at hmem
  rcases hmem with rfl | rfl
  · refine ⟨hshort _ (by decide), fun s hs ↦ absurd hs List.not_mem_nil, ?_,
      fun name hname ↦ absurd hname List.not_mem_nil⟩
    intro locvar hlocvar
    rw [List.eq_of_mem_singleton hlocvar]
    exact hshort _ (by decide)
  · refine ⟨hshort _ (by decide), ?_, fun locvar hlocvar ↦ absurd hlocvar List.not_mem_nil,
      fun name hname ↦ absurd hname List.not_mem_nil⟩
    intro s hs
    exact nomatch List.eq_of_mem_singleton hs

/-- The file is dumped for a big endian machine with integers of four bytes without an error. -/
theorem exists_dump_outerFunction : ∃ output,
    luaUDumpCrosscompile (dumperFor littleHost (integralMachine .int32)) outerFunction =
      some (0, output) := by
  have hstatus : (luaUDumpCrosscompile (dumperFor littleHost (integralMachine .int32))
      outerFunction).map Prod.fst = some 0 := by
    rw [luaUDumpCrosscompile_eq]
    rfl
  obtain ⟨⟨status, output⟩, hdump, hzero⟩ := Option.map_eq_some_iff.1 hstatus
  obtain rfl : status = 0 := hzero
  exact ⟨output, hdump⟩

/-- The file dumped for a big endian machine with integers of four bytes loads back there, with its
debug information. -/
theorem loadsBack_outerFunction : ∃ output,
    luaUDumpCrosscompile (dumperFor littleHost (integralMachine .int32)) outerFunction =
        some (0, output) ∧
      LoadsBack (integralMachine .int32) (fun _ ↦ true) 0 output
        ((outerFunction.kept false).convert littleHost .int32) := by
  obtain ⟨output, hdump⟩ := exists_dump_outerFunction
  have hdepth : outerFunction.depth ≤ luaiMaxccalls - 0 := by decide
  have hnumbers : (integralMachine .int32).format = .int64 →
      ∀ g ∈ outerFunction.functions, ∀ x, .number x ∉ g.body.k := fun hformat ↦ nomatch hformat
  refine ⟨output, hdump, ?_⟩
  exact @loadsBack_of_dump _ (dumperFor littleHost (integralMachine .int32))
    (integralMachine .int32) _ _ _ _ rfl (fun _ ↦ rfl) compiled_outerFunction hnumbers
    stringsFit_outerFunction hdepth (fun _ _ ↦ rfl) hdump

/-- The bytes dumped for `innerFunction` where its constant has none. -/
def chunkWithoutNumber (m : Machine) : List UInt8 :=
  headerBytes m.target ++
    [0, 0, 0, 3, 64, 102, 0, 0, 0, 0, 1, 0, 0, 0, 1, 0, 0, 0, 2, 0, 0, 0, 3, 0, 0, 0, 0, 1, 1, 0, 0,
      30, 0, 128, 0, 30, 0, 0, 0, 1, 5, 0, 0, 0, 0, 0, 0, 0, 3, 0, 0, 0, 0, 0, 0, 1, 0, 0, 0, 1, 0,
      0, 0, 1, 0, 0, 0, 0, 0, 0, 0, 0]

/-- Dumps that end with status zero and do not load back: for a machine with integers of eight
bytes, which have no bytes in the dump; by a machine with integral numbers for one with `double`s;
and the dump of the file, wherever a load starts with all C calls in use. -/
theorem not_loadsBack_innerFunction :
    (luaUDumpCrosscompile (dumperFor littleHost (integralMachine .int64)) innerFunction =
        some (0, chunkWithoutNumber (integralMachine .int64)) ∧
      ¬LoadsBack (integralMachine .int64) (fun _ ↦ true) 0
        (chunkWithoutNumber (integralMachine .int64))
        ((innerFunction.kept false).convert littleHost .int64)) ∧
    (luaUDumpCrosscompile (dumperFor { littleHost with integral := true }
        (integralMachine .double)) innerFunction =
        some (0, chunkWithoutNumber (integralMachine .double)) ∧
      ¬LoadsBack (integralMachine .double) (fun _ ↦ true) 0
        (chunkWithoutNumber (integralMachine .double))
        ((innerFunction.kept false).convert littleHost .double)) ∧
    ∃ output, luaUDumpCrosscompile (dumperFor littleHost (integralMachine .int32)) outerFunction =
        some (0, output) ∧
      ¬LoadsBack (integralMachine .int32) (fun _ ↦ true) luaiMaxccalls output
        ((outerFunction.kept false).convert littleHost .int32) := by
  have hlonglong : luaUDumpCrosscompile (dumperFor littleHost (integralMachine .int64))
      innerFunction = some (0, chunkWithoutNumber (integralMachine .int64)) := by
    rw [luaUDumpCrosscompile_eq]
    rfl
  have hnative : luaUDumpCrosscompile (dumperFor { littleHost with integral := true }
      (integralMachine .double)) innerFunction =
        some (0, chunkWithoutNumber (integralMachine .double)) := by
    rw [luaUDumpCrosscompile_eq]
    rfl
  refine ⟨⟨hlonglong, not_loadsBack_of_error (by decide +kernel)⟩,
    ⟨hnative, not_loadsBack_of_error (by decide +kernel)⟩, ?_⟩
  obtain ⟨output, hdump⟩ := exists_dump_outerFunction
  exact ⟨output, hdump, not_loadsBack_of_calls (Nat.le_refl _)⟩

end Tests

end Elua.Lua
