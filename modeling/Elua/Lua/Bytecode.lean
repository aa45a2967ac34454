import Elua.Foundation.Layout
import Elua.Lua.Dump

/-!
# The format of precompiled chunks

The bytes of a prototype as a `Layout`: `functionLayout` says what a chunk holds and where its
padding lies, without saying how it is written or read. `writes_dumpFunction` shows that a dump
that ends with status zero wrote the layout of what it keeps of the prototype (`kept`), and that
every integer in it was in range (`Proto.IntsFit`). The layout leaves open how numbers are encoded;
`Host.numberBytes` are the bytes a dump writes for them, none at all for integers of eight bytes.
-/

set_option autoImplicit false
set_option relaxedAutoImplicit false

namespace Elua.Lua

open Elua.Foundation Layout

/-! ### Layouts -/

section Layouts

variable {Number : Type} (littleEndian : Bool) (numberBytes : Number → List UInt8)

/-- An `int`. -/
def intLayout (x : ℤ) : Layout := block (inMemory littleEndian 4 (residue 4 x))

/-- A string: one more than its length, and its characters with a `'\0'`; zero for `NULL`. -/
def stringLayout : TString → Layout
  | none => block (inMemory littleEndian 4 0)
  | some s => sequence [block (inMemory littleEndian 4 (s.length + 1)), block (s ++ [0])]

/-- A constant: its type and its value. -/
def constantLayout : Constant Number → Layout
  | .nil => sequence [block [luaTnil]]
  | .boolean value => sequence [block [luaTboolean], block [if value then 1 else 0]]
  | .number x => sequence [block [luaTnumber], block (numberBytes x)]
  | .string s => sequence [block [luaTstring], stringLayout littleEndian s]

/-- The code, aligned. -/
def codeLayout (code : List UInt32) : Layout :=
  sequence [intLayout littleEndian code.length, align 4,
    sequence (code.map fun instruction ↦
      block (inMemory littleEndian sizeofInstruction instruction.toNat))]

/-- A local variable. -/
def locVarLayout (locvar : LocVar) : Layout :=
  sequence [stringLayout littleEndian locvar.varname, intLayout littleEndian locvar.startpc,
    intLayout littleEndian locvar.endpc]

/-- The debug information, with the line information aligned. -/
def debugLayout (f : FunctionBody Number) : Layout :=
  sequence [intLayout littleEndian f.lineinfo.length, align 4,
    sequence (f.lineinfo.map (intLayout littleEndian)),
    intLayout littleEndian f.locvars.length, sequence (f.locvars.map (locVarLayout littleEndian)),
    intLayout littleEndian f.upvalues.length,
    sequence (f.upvalues.map (stringLayout littleEndian))]

/-- The string that stands for a source inside a function with another: `NULL` where they agree. -/
def sourceInside (outer source : TString) : TString := if source = outer then none else source

/-- A function behind its source, given the layouts of the functions defined inside. -/
def fieldLayouts (f : FunctionBody Number) (nested : List Layout) : List Layout :=
  [intLayout littleEndian f.linedefined, intLayout littleEndian f.lastlinedefined,
    block [f.nups], block [f.numparams], block [f.isVararg], block [f.maxstacksize],
    codeLayout littleEndian f.code,
    sequence [intLayout littleEndian f.k.length,
      sequence (f.k.map (constantLayout littleEndian numberBytes)),
      intLayout littleEndian nested.length, sequence nested],
    debugLayout littleEndian f]

mutual

/-- A function, with the string that stands for its source. -/
def functionLayout : TString → Proto Number → Layout
  | source, .mk f fs =>
    sequence (stringLayout littleEndian source ::
      fieldLayouts littleEndian numberBytes f (functionLayouts f.source fs))

/-- The functions defined inside a function with a source. -/
def functionLayouts : TString → List (Proto Number) → List Layout
  | _, [] => []
  | outer, f :: fs =>
    functionLayout (sourceInside outer f.body.source) f :: functionLayouts outer fs

end

@[simp] theorem length_functionLayouts (outer : TString) (fs : List (Proto Number)) :
    (functionLayouts littleEndian numberBytes outer fs).length = fs.length := by
  induction fs with
  | nil => rfl
  | cons f fs ih => rw [functionLayouts, List.length_cons, ih, List.length_cons]

end Layouts

/-- The bytes of a number for a machine. There are none for an integer of eight bytes. -/
def Host.numberBytes {Number : Type} (host : Host Number) (m : Machine) (x : Number) :
    List UInt8 :=
  match m.format with
  | .int8 => inMemory m.littleEndian 1 (residue 1 (host.toInt x))
  | .int16 => inMemory m.littleEndian 2 (residue 2 (host.toInt x))
  | .int32 => inMemory m.littleEndian 4 (residue 4 (host.toInt x))
  | .int64 => []
  | .float => inMemory m.littleEndian 4 (host.toFloat x).toNat
  | .double =>
    let y := inMemory m.littleEndian 8 (host.toDouble x).toNat
    if m.isArmFpa then swapHalves y else y

/-! ### What a dump keeps and what it checks -/

/-- What a function keeps in a dump: without debug information it has the source of a chunk that
does not tell it. -/
def FunctionBody.kept {Number : Type} (strip : Bool) (f : FunctionBody Number) :
    FunctionBody Number :=
  if strip then
    { f with source := some [0x3D, 0x3F], lineinfo := [], locvars := [], upvalues := [] }
  else
    f

/-- What a dump keeps of a prototype. -/
def Proto.kept {Number : Type} (strip : Bool) (f : Proto Number) : Proto Number :=
  f.map (FunctionBody.kept strip)

section Kept

variable {Number : Type} (strip : Bool) (f : FunctionBody Number)

theorem kept_lineinfo : (f.kept strip).lineinfo = if strip then [] else f.lineinfo := by
  cases strip <;> rfl

theorem kept_locvars : (f.kept strip).locvars = if strip then [] else f.locvars := by
  cases strip <;> rfl

theorem kept_upvalues : (f.kept strip).upvalues = if strip then [] else f.upvalues := by
  cases strip <;> rfl

theorem kept_linedefined : (f.kept strip).linedefined = f.linedefined := by
  cases strip <;> rfl

theorem kept_lastlinedefined : (f.kept strip).lastlinedefined = f.lastlinedefined := by
  cases strip <;> rfl

theorem kept_code : (f.kept strip).code = f.code := by
  cases strip <;> rfl

theorem kept_k : (f.kept strip).k = f.k := by
  cases strip <;> rfl

/-- What is kept differs in the source and the debug information only. -/
theorem fieldLayouts_kept (littleEndian : Bool) (numberBytes : Number → List UInt8)
    (nested : List Layout) :
    fieldLayouts littleEndian numberBytes (f.kept strip) nested =
      [intLayout littleEndian f.linedefined, intLayout littleEndian f.lastlinedefined,
        block [f.nups], block [f.numparams], block [f.isVararg], block [f.maxstacksize],
        codeLayout littleEndian f.code,
        sequence [intLayout littleEndian f.k.length,
          sequence (f.k.map (constantLayout littleEndian numberBytes)),
          intLayout littleEndian nested.length, sequence nested],
        debugLayout littleEndian (f.kept strip)] := by
  cases strip <;> rfl

/-- The string dumped for a source stands for what is kept of it. -/
theorem sourceInside_kept (outer : FunctionBody Number) :
    sourceInside (outer.kept strip).source (f.kept strip).source =
      if f.source = outer.source ∨ strip then none else f.source := by
  cases strip with
  | true =>
    rw [if_pos (Or.inr rfl)]
    rfl
  | false =>
    unfold sourceInside FunctionBody.kept
    simp only [Bool.false_eq_true, or_false, if_false]

end Kept

/-- An integer that a dump does not refuse. -/
def IntFits (x : ℤ) : Prop := -0x7FFFFFFF ≤ x ∧ x ≤ 0x7FFFFFFE

/-- The integers of one function that are dumped are in range. -/
structure Proto.IntsFit {Number : Type} (f : Proto Number) : Prop where
  linedefined : IntFits f.body.linedefined
  lastlinedefined : IntFits f.body.lastlinedefined
  code : IntFits f.body.code.length
  k : IntFits f.body.k.length
  nested : IntFits f.nested.length
  sizelineinfo : IntFits f.body.lineinfo.length
  lineinfo : ∀ line ∈ f.body.lineinfo, IntFits line
  sizelocvars : IntFits f.body.locvars.length
  locvars : ∀ locvar ∈ f.body.locvars, IntFits locvar.startpc ∧ IntFits locvar.endpc
  upvalues : IntFits f.body.upvalues.length

/-- A string that, with its `'\0'`, takes no more than `limit` bytes. -/
def StringFits (limit : ℕ) (s : TString) : Prop := ∀ bytes, s = some bytes → bytes.length + 1 ≤ limit

/-- The strings of one function fit. -/
structure FunctionBody.StringsFit {Number : Type} (limit : ℕ) (f : FunctionBody Number) :
    Prop where
  source : StringFits limit f.source
  k : ∀ s, .string s ∈ f.k → StringFits limit s
  locvars : ∀ locvar ∈ f.locvars, StringFits limit locvar.varname
  upvalues : ∀ name ∈ f.upvalues, StringFits limit name

/-- The string dumped for a source fits if what is kept of the source does. -/
theorem stringFits_source {Number : Type} {limit : ℕ} {f : FunctionBody Number} {p : TString} {strip : Bool}
    (hfits : (f.kept strip).StringsFit limit) :
    StringFits limit (if f.source = p ∨ strip then none else f.source) := by
  by_cases hnone : f.source = p ∨ strip
  · rw [if_pos hnone]
    exact fun bytes hbytes ↦ absurd hbytes.symm (Option.some_ne_none _)
  · rw [if_neg hnone]
    have hstrip : strip = false := by
      rcases Bool.eq_false_or_eq_true strip with htrue | hfalse
      · exact absurd (Or.inr htrue) hnone
      · exact hfalse
    rw [hstrip] at hfits
    exact hfits.source

/-! ### What one part of a dump writes -/

/-- A part of a dump that, if the status is still zero after it, has added a layout to the output,
and found that something holds. -/
def Writes (dump : Dump Unit) (piece : Layout) (holds : Prop) : Prop :=
  ∀ state after, dump state = some ((), after) → after.status = 0 →
    state.status = 0 ∧ holds ∧ after.output = state.output ++ piece state.wrote ∧
      after.wrote = piece.finish state.wrote

section Writes

variable {first second : Dump Unit} {piece : Layout} {pieces : List Layout} {holds also : Prop}

/-- One part after the other. -/
theorem Writes.andThen (hfirst : Writes first piece holds)
    (hsecond : Writes second (sequence pieces) also) :
    Writes (first >>= fun _ ↦ second) (sequence (piece :: pieces)) (holds ∧ also) := by
  intro state after hrun hstatus
  cases hbetween : first state with
  | none =>
    have : (first >>= fun _ ↦ second) state = none := by
      change (first state >>= fun result ↦ second result.2) = none
      rw [hbetween]
      rfl
    rw [this] at hrun
    cases hrun
  | some result =>
    obtain ⟨_, between⟩ := result
    have hstep : (first >>= fun _ ↦ second) state = second between := by
      change (first state >>= fun result ↦ second result.2) = second between
      rw [hbetween]
      rfl
    rw [hstep] at hrun
    obtain ⟨hzero, halso, houtput, hwrote⟩ := hsecond between after hrun hstatus
    obtain ⟨hstart, hholds, hbefore, hfinish⟩ := hfirst state between hbetween hzero
    refine ⟨hstart, ⟨hholds, halso⟩, ?_, ?_⟩
    · rw [houtput, hbefore, hfinish, List.append_assoc, sequence_cons]
    · rw [hwrote, hfinish, finish_sequence_cons]

/-- A last part. -/
theorem Writes.last (hfirst : Writes first piece holds) : Writes first (sequence [piece]) holds := by
  intro state after hrun hstatus
  obtain ⟨hstart, hholds, houtput, hwrote⟩ := hfirst state after hrun hstatus
  refine ⟨hstart, hholds, ?_, ?_⟩
  · rw [sequence_cons, sequence_nil, List.append_nil, houtput]
  · rw [finish_sequence_cons, finish_sequence_nil, hwrote]

/-- A part that does nothing. -/
theorem writes_nothing : Writes (pure ()) (sequence []) True := by
  intro state after hrun hstatus
  cases hrun
  exact ⟨hstatus, trivial, (List.append_nil _).symm, rfl⟩

theorem Writes.imp (hfirst : Writes first piece holds) (himp : holds → also) :
    Writes first piece also := by
  intro state after hrun hstatus
  obtain ⟨hstart, hholds, hrest⟩ := hfirst state after hrun hstatus
  exact ⟨hstart, himp hholds, hrest⟩

/-- A loop writes the layouts of the elements after each other. -/
theorem writes_forM {Element : Type} (dumpOne : Element → Dump Unit) (layout : Element → Layout)
    (holdsOf : Element → Prop) (elements : List Element)
    (hone : ∀ element ∈ elements, Writes (dumpOne element) (layout element) (holdsOf element)) :
    Writes (elements.forM dumpOne) (sequence (elements.map layout))
      (∀ element ∈ elements, holdsOf element) := by
  induction elements with
  | nil =>
    exact writes_nothing.imp fun _ element hmem ↦ absurd hmem List.not_mem_nil
  | cons element elements ih =>
    have hfirst := hone element List.mem_cons_self
    have hrest := ih fun other hother ↦ hone other (List.mem_cons_of_mem _ hother)
    exact (hfirst.andThen hrest).imp fun hholds ↦ List.forall_mem_cons.mpr hholds

end Writes

/-- Swapping halves and reversing eight bytes can be done in either order. -/
theorem reverse_swapHalves {bytes : List UInt8} (hlength : bytes.length = 8) :
    (swapHalves bytes).reverse = swapHalves bytes.reverse := by
  unfold swapHalves
  rw [List.reverse_append, List.drop_reverse, List.take_reverse, hlength]

theorem swapHalves_swapHalves {bytes : List UInt8} (hlength : bytes.length = 8) :
    swapHalves (swapHalves bytes) = bytes := by
  have hhalf : (bytes.drop 4).length = 4 := by rw [List.length_drop, hlength]
  unfold swapHalves
  rw [List.drop_left' hhalf, List.take_left' hhalf, List.take_append_drop]

section Parts

variable {Number : Type} (D : Dumper Number)

theorem writes_dumpBlock (bytes : List UInt8) : Writes (dumpBlock D bytes) (block bytes) True := by
  intro state after hrun hstatus
  change some ((), if state.status = 0 then
    { status := D.writer (state.blocks ++ [bytes]), wrote := state.wrote + bytes.length,
      blocks := state.blocks ++ [bytes] } else state) = _ at hrun
  by_cases hzero : state.status = 0
  · rw [if_pos hzero] at hrun
    cases hrun
    refine ⟨hzero, trivial, ?_, rfl⟩
    unfold DumpState.output block
    rw [List.flatten_append, List.flatten_singleton]
  · rw [if_neg hzero] at hrun
    cases hrun
    exact absurd hstatus hzero

/-- A dump that goes on after setting an error does not end with status zero. -/
theorem writes_checked {dump : Dump Unit} {piece : Layout} (code : ℤ) (hcode : code ≠ 0)
    (refused : Prop) [Decidable refused] (hdump : Writes dump piece True) :
    Writes (do
      if refused then setStatus code
      dump) piece (¬ refused) := by
  intro state after hrun hstatus
  by_cases hrefused : refused
  · rw [if_pos hrefused] at hrun
    obtain ⟨hzero, -⟩ := hdump _ after hrun hstatus
    exact absurd hzero hcode
  · rw [if_neg hrefused] at hrun
    obtain ⟨hzero, -, hrest⟩ := hdump _ after hrun hstatus
    exact ⟨hzero, hrefused, hrest⟩

theorem writes_align4Loop (turns : ℕ) : Writes (align4Loop D turns) (align 4) True := by
  induction turns with
  | zero =>
    intro state after hrun hstatus
    cases hrun
  | succ turns ih =>
    intro state after hrun hstatus
    by_cases haligned : state.wrote % 4 = 0
    · rw [align4Loop_aligned D haligned] at hrun
      cases hrun
      refine ⟨hstatus, trivial, ?_, ?_⟩
      · rw [align_of_mod_eq_zero haligned, List.append_nil]
      · unfold finish
        rw [align_of_mod_eq_zero haligned, List.length_nil, Nat.add_zero]
    · rw [align4Loop_turn D haligned] at hrun
      obtain ⟨hstart, -, houtput, hwrote⟩ :=
        (writes_dumpBlock D [0]).andThen ih.last state after hrun hstatus
      rw [sequence_cons, sequence_cons, sequence_nil, List.append_nil] at houtput
      rw [finish_sequence_cons, finish_sequence_cons, finish_sequence_nil] at hwrote
      have hpadding : align 4 state.wrote = 0 :: align 4 (state.wrote + 1) :=
        align_of_mod_ne_zero (by decide) haligned
      refine ⟨hstart, trivial, ?_, ?_⟩
      · rw [houtput, hpadding]
        rfl
      · rw [hwrote]
        unfold finish
        rw [hpadding, List.length_cons]
        change state.wrote + 1 + (align 4 (state.wrote + 1)).length = _
        omega

theorem writes_dumpAlign4 : Writes (dumpAlign4 D) (align 4) True := writes_align4Loop D 4

variable {D} {m : Machine} (htarget : D.target = m.target)

include htarget

/-- A number is swapped to the byte order of the target. -/
theorem maybeByteSwap_inMemory (width value : ℕ) :
    maybeByteSwap D (inMemory D.host.littleEndian width value) =
      inMemory m.littleEndian width value := by
  have horder : D.target.littleEndian = m.littleEndian := by rw [htarget]; rfl
  unfold maybeByteSwap
  rw [horder]
  by_cases hsame : D.host.littleEndian = m.littleEndian
  · rw [if_pos hsame, hsame]
  · rw [if_neg hsame, reverse_inMemory, Bool.eq_not_of_ne (Ne.symm hsame)]

theorem writes_dumpSwapped (width value : ℕ) :
    Writes (dumpSwapped D width value) (block (inMemory m.littleEndian width value)) True := by
  unfold dumpSwapped
  rw [maybeByteSwap_inMemory htarget]
  exact writes_dumpBlock D _

theorem writes_dumpInt (x : ℤ) :
    Writes (dumpInt D x) (intLayout m.littleEndian x) (IntFits x) := by
  have hsize : D.target.sizeofInt = 4 := by rw [htarget]; rfl
  unfold dumpInt
  rw [hsize]
  refine (writes_checked luaErrCcIntoverflow (by decide) _ (writes_dumpSwapped htarget 4 _)).imp ?_
  intro hrange
  unfold IntFits
  omega

theorem writes_dumpSize (x : ℕ) :
    Writes (dumpSize D x) (block (inMemory m.littleEndian 4 x)) True := by
  have hsize : D.target.sizeofStrsizeT = 4 := by rw [htarget]; rfl
  unfold dumpSize
  rw [hsize]
  exact (writes_checked luaErrCcIntoverflow (by decide) _ (writes_dumpSwapped htarget 4 _)).imp
    fun _ ↦ trivial

/-- A string whose size is a `strsize_t` is written whole. -/
theorem writes_dumpString {s : TString} {limit : ℕ} (hlimit : limit < 2 ^ 32)
    (hfits : StringFits limit s) : Writes (dumpString D s) (stringLayout m.littleEndian s) True := by
  cases s with
  | none => exact writes_dumpSize htarget 0
  | some bytes =>
    have hlength := hfits bytes rfl
    have hsize : (bytes.length % 2 ^ 32 + 1) % 2 ^ 32 = bytes.length + 1 := by omega
    have hwhole : (bytes ++ [0]).take (bytes.length + 1) = bytes ++ [0] :=
      List.take_of_length_le (by rw [List.length_append, List.length_singleton])
    unfold dumpString stringLayout
    dsimp only
    rw [hsize, hwhole]
    exact ((writes_dumpSize htarget _).andThen (writes_dumpBlock D _).last).imp fun _ ↦ trivial

/-- An integral target gets the bytes of the integer, and none if it has eight. -/
theorem writes_dumpIntWithSize {x : Number} (hintegral : m.format.integral = true) :
    Writes (dumpIntWithSize D (D.host.toInt x) m.format.size) (block (D.host.numberBytes m x))
      True := by
  unfold Host.numberBytes
  cases hformat : m.format with
  | int8 =>
    have hbyte : inMemory m.littleEndian 1 (residue 1 (D.host.toInt x)) =
        [UInt8.ofNat (residue 1 (D.host.toInt x))] := by
      have hlt : residue 1 (D.host.toInt x) < 256 := residue_lt 1 _
      unfold inMemory leBytes leBytes
      rw [Nat.mod_eq_of_lt hlt]
      cases m.littleEndian <;> rfl
    dsimp only
    rw [hbyte]
    exact (writes_checked luaErrCcIntoverflow (by decide) _ (writes_dumpBlock D _)).imp
      fun _ ↦ trivial
  | int16 =>
    exact (writes_checked luaErrCcIntoverflow (by decide) _ (writes_dumpSwapped htarget 2 _)).imp
      fun _ ↦ trivial
  | int32 =>
    exact (writes_checked luaErrCcIntoverflow (by decide) _ (writes_dumpSwapped htarget 4 _)).imp
      fun _ ↦ trivial
  | int64 => exact writes_nothing
  | float =>
    rw [hformat] at hintegral
    cases hintegral
  | double =>
    rw [hformat] at hintegral
    cases hintegral

theorem maybeByteSwap_swapHalves (value : ℕ) :
    maybeByteSwap D (swapHalves (inMemory D.host.littleEndian 8 value)) =
      swapHalves (inMemory m.littleEndian 8 value) := by
  rw [← maybeByteSwap_inMemory htarget]
  unfold maybeByteSwap
  split
  · rfl
  · exact reverse_swapHalves (length_inMemory ..)

/-- The bytes of a number are written, if an integral host dumps for an integral target. -/
theorem writes_dumpNumber (hintegral : D.host.integral = true → m.format.integral = true)
    (x : Number) : Writes (dumpNumber D x) (block (D.host.numberBytes m x)) True := by
  have hsize : D.target.sizeofLuaNumber = m.format.size := by rw [htarget]; rfl
  have hnumber : D.target.luaNumberIntegral = m.format.integral := by rw [htarget]; rfl
  have hfpa : D.target.isArmFpa = m.isArmFpa := by rw [htarget]; rfl
  unfold dumpNumber
  rw [hsize, hnumber, hfpa]
  by_cases hhost : D.host.integral = true
  · rw [if_pos hhost]
    exact writes_dumpIntWithSize htarget (hintegral hhost)
  · rw [if_neg hhost]
    by_cases htype : m.format.integral = true
    · rw [if_pos htype]
      exact (writes_checked luaErrCcNotinteger (by decide) _
        (writes_dumpIntWithSize htarget htype)).imp fun _ ↦ trivial
    · rw [if_neg htype]
      unfold Host.numberBytes
      cases hformat : m.format with
      | float => exact writes_dumpSwapped htarget 4 _
      | double =>
        dsimp only [NumberFormat.size]
        by_cases hswap : m.isArmFpa = true
        · rw [if_pos hswap, if_pos hswap, maybeByteSwap_swapHalves htarget]
          exact writes_dumpBlock D _
        · rw [if_neg hswap, if_neg hswap]
          exact writes_dumpSwapped htarget 8 _
      | int8 | int16 | int32 | int64 =>
        rw [hformat] at htype
        exact absurd rfl htype

theorem writes_dumpConstant (hintegral : D.host.integral = true → m.format.integral = true)
    {limit : ℕ} (hlimit : limit < 2 ^ 32) (o : Constant Number)
    (hfits : ∀ s, .string s = o → StringFits limit s) :
    Writes (dumpConstant D o) (constantLayout m.littleEndian (D.host.numberBytes m) o) True := by
  have htype := writes_dumpBlock D [o.ttype]
  cases o with
  | nil => exact (htype.andThen writes_nothing).imp fun _ ↦ trivial
  | boolean value =>
    exact (htype.andThen (writes_dumpBlock D [if value then 1 else 0]).last).imp fun _ ↦ trivial
  | number x =>
    exact (htype.andThen (writes_dumpNumber htarget hintegral x).last).imp fun _ ↦ trivial
  | string s =>
    exact (htype.andThen (writes_dumpString htarget hlimit (hfits s rfl)).last).imp
      fun _ ↦ trivial

theorem writes_dumpCode (f : FunctionBody Number) :
    Writes (dumpCode D f) (codeLayout m.littleEndian f.code) (IntFits f.code.length) := by
  have hloop := writes_forM
    (fun instruction : UInt32 ↦ dumpSwapped D sizeofInstruction instruction.toNat) _
    (fun _ ↦ True) f.code fun instruction _ ↦ writes_dumpSwapped htarget sizeofInstruction _
  exact ((writes_dumpInt htarget _).andThen ((writes_dumpAlign4 D).andThen hloop.last)).imp
    fun hholds ↦ hholds.1

theorem writes_dumpLocVar {limit : ℕ} (hlimit : limit < 2 ^ 32) (locvar : LocVar)
    (hfits : StringFits limit locvar.varname) :
    Writes (dumpLocVar D locvar) (locVarLayout m.littleEndian locvar)
      (IntFits locvar.startpc ∧ IntFits locvar.endpc) :=
  ((writes_dumpString htarget hlimit hfits).andThen ((writes_dumpInt htarget _).andThen
    (writes_dumpInt htarget _).last)).imp fun hholds ↦ hholds.2

theorem writes_dumpDebug {limit : ℕ} (hlimit : limit < 2 ^ 32) (f : FunctionBody Number)
    (hfits : (f.kept D.strip).StringsFit limit) :
    Writes (dumpDebug D f) (debugLayout m.littleEndian (f.kept D.strip))
      (IntFits (f.kept D.strip).lineinfo.length ∧
        (∀ line ∈ (f.kept D.strip).lineinfo, IntFits line) ∧
        IntFits (f.kept D.strip).locvars.length ∧
        (∀ locvar ∈ (f.kept D.strip).locvars, IntFits locvar.startpc ∧ IntFits locvar.endpc) ∧
        IntFits (f.kept D.strip).upvalues.length) := by
  unfold dumpDebug
  rw [← kept_lineinfo, ← kept_locvars, ← kept_upvalues]
  have hlines := writes_forM (dumpInt D) _ IntFits (f.kept D.strip).lineinfo
    fun line _ ↦ writes_dumpInt htarget line
  have hlocvars := writes_forM (dumpLocVar D) _ _ (f.kept D.strip).locvars
    fun locvar hmem ↦ writes_dumpLocVar htarget hlimit locvar (hfits.locvars locvar hmem)
  have hupvalues := writes_forM (dumpString D) _ (fun _ ↦ True) (f.kept D.strip).upvalues
    fun name hmem ↦ writes_dumpString htarget hlimit (hfits.upvalues name hmem)
  refine ((writes_dumpInt htarget _).andThen ((writes_dumpAlign4 D).andThen
    (hlines.andThen ((writes_dumpInt htarget _).andThen (hlocvars.andThen
      ((writes_dumpInt htarget _).andThen hupvalues.last)))))).imp ?_
  rintro ⟨hsizelineinfo, -, hlineinfo, hsizelocvars, hlocvar, hsizeupvalues, -⟩
  exact ⟨hsizelineinfo, hlineinfo, hsizelocvars, hlocvar, hsizeupvalues⟩

end Parts

section Function

variable {Number : Type} {D : Dumper Number} {m : Machine} {limit : ℕ}

mutual

/-- A dump with status zero wrote the layout of what it keeps, and every integer was in range. -/
theorem writes_dumpFunction (htarget : D.target = m.target)
    (hintegral : D.host.integral = true → m.format.integral = true) (hlimit : limit < 2 ^ 32) :
    ∀ (f : Proto Number) (p : TString),
    (∀ g ∈ (f.kept D.strip).functions, g.body.StringsFit limit) →
    Writes (dumpFunction D f p)
      (functionLayout m.littleEndian (D.host.numberBytes m)
        (if f.body.source = p ∨ D.strip then none else f.body.source) (f.kept D.strip))
      (∀ g ∈ (f.kept D.strip).functions, g.IntsFit)
  | .mk f fs, p, hfits => by
    have hall : ((Proto.mk f fs).kept D.strip).functions =
        .mk (f.kept D.strip) (Proto.mapAll (FunctionBody.kept D.strip) fs) ::
          Proto.functionsOf (Proto.mapAll (FunctionBody.kept D.strip) fs) := by
      unfold Proto.kept
      rw [Proto.map, Proto.functions]
    rw [hall, List.forall_mem_cons] at hfits
    have hlayout : (functionLayouts m.littleEndian (D.host.numberBytes m) (f.kept D.strip).source
        (Proto.mapAll (FunctionBody.kept D.strip) fs)).length = fs.length := by
      rw [length_functionLayouts, Proto.length_mapAll]
    rw [hall, dumpFunction, Proto.kept, Proto.map, functionLayout, fieldLayouts_kept, hlayout]
    have hbody : (f.kept D.strip).StringsFit limit := hfits.1
    have hconstants := writes_forM (dumpConstant D)
      (constantLayout m.littleEndian (D.host.numberBytes m)) (fun _ ↦ True) f.k fun o hmem ↦
        writes_dumpConstant htarget hintegral hlimit o fun s hs ↦
          hbody.k s (by rw [kept_k, hs]; exact hmem)
    have hnested := writes_dumpFunctions htarget hintegral hlimit fs f hfits.2
    refine ((writes_dumpString htarget hlimit (stringFits_source hbody)).andThen
      ((writes_dumpInt htarget f.linedefined).andThen
      ((writes_dumpInt htarget f.lastlinedefined).andThen
      ((writes_dumpBlock D [f.nups]).andThen ((writes_dumpBlock D [f.numparams]).andThen
      ((writes_dumpBlock D [f.isVararg]).andThen ((writes_dumpBlock D [f.maxstacksize]).andThen
      ((writes_dumpCode htarget f).andThen
      (((writes_dumpInt htarget f.k.length).andThen (hconstants.andThen
        ((writes_dumpInt htarget fs.length).andThen hnested.last))).andThen
      (writes_dumpDebug htarget hlimit f hbody).last))))))))).imp ?_
    rintro ⟨-, hlinedefined, hlastlinedefined, -, -, -, -, hcode, ⟨hsizek, -, hsizep, hinside⟩,
      hsizelineinfo, hlineinfo, hsizelocvars, hlocvars, hsizeupvalues⟩
    refine List.forall_mem_cons.mpr ⟨?_, hinside⟩
    exact
      { linedefined := by rwa [Proto.body, kept_linedefined]
        lastlinedefined := by rwa [Proto.body, kept_lastlinedefined]
        code := by rwa [Proto.body, kept_code]
        k := by rwa [Proto.body, kept_k]
        nested := by rwa [Proto.nested, Proto.length_mapAll]
        sizelineinfo := hsizelineinfo
        lineinfo := hlineinfo
        sizelocvars := hsizelocvars
        locvars := hlocvars
        upvalues := hsizeupvalues }

/-- The functions defined inside another are written after each other. -/
theorem writes_dumpFunctions (htarget : D.target = m.target)
    (hintegral : D.host.integral = true → m.format.integral = true) (hlimit : limit < 2 ^ 32) :
    ∀ (fs : List (Proto Number)) (outer : FunctionBody Number),
    (∀ g ∈ Proto.functionsOf (Proto.mapAll (FunctionBody.kept D.strip) fs),
      g.body.StringsFit limit) →
    Writes (dumpFunctions D fs outer.source)
      (sequence (functionLayouts m.littleEndian (D.host.numberBytes m) (outer.kept D.strip).source
        (Proto.mapAll (FunctionBody.kept D.strip) fs)))
      (∀ g ∈ Proto.functionsOf (Proto.mapAll (FunctionBody.kept D.strip) fs), g.IntsFit)
  | [], outer, _ => by
    exact writes_nothing.imp fun _ g hmem ↦ absurd hmem List.not_mem_nil
  | f :: fs, outer, hfits => by
    rw [Proto.mapAll, Proto.functionsOf, List.forall_mem_append] at hfits
    have hfirst := writes_dumpFunction htarget hintegral hlimit f outer.source hfits.1
    have hrest := writes_dumpFunctions htarget hintegral hlimit fs outer hfits.2
    rw [Proto.mapAll, Proto.functionsOf, functionLayouts, Proto.body_map, sourceInside_kept]
    exact (hfirst.andThen hrest).imp fun hholds ↦ List.forall_mem_append.mpr hholds

end

/-- A whole dump with status zero is the header and the layout of what is kept. -/
theorem output_of_dump (htarget : D.target = m.target)
    (hintegral : D.host.integral = true → m.format.integral = true) (hlimit : limit < 2 ^ 32)
    {f : Proto Number} {output : List UInt8}
    (hfits : ∀ g ∈ (f.kept D.strip).functions, g.body.StringsFit limit)
    (hdump : luaUDumpCrosscompile D f = some (0, output)) :
    output = headerBytes m.target ++
        functionLayout m.littleEndian (D.host.numberBytes m)
          (if f.body.source = none ∨ D.strip then none else f.body.source) (f.kept D.strip) 12 ∧
      ∀ g ∈ (f.kept D.strip).functions, g.IntsFit := by
  have hwrites := ((writes_dumpBlock D (headerBytes m.target)).andThen
    (writes_dumpFunction htarget hintegral hlimit f none hfits).last).imp And.right
  obtain ⟨after, hrun, hstatus, hafter⟩ := exists_of_luaUDumpCrosscompile hdump
  unfold dumpHeader at hrun
  rw [htarget] at hrun
  obtain ⟨-, hints, houtput, -⟩ := hwrites _ after hrun hstatus
  refine ⟨?_, hints⟩
  rw [← hafter, houtput, sequence_cons, sequence_cons, sequence_nil, List.append_nil]
  rfl

end Function

end Elua.Lua
