import Elua.Lua.Bytecode
import Elua.Lua.Undump

/-!
# Reading what the format says

The other half of the round trip. `Reads` says that a part of a load, at any place where the stream
goes on with a layout, takes exactly that layout off the stream and returns a given value. It
composes as the layouts do (`Reads.bind`), and `reads_loadFunction` is the result for prototypes.
Nothing here depends on how the reader buffers the stream, nor on whether the chunk is read in
direct mode: `LoadState.Ready` says that the image at the base address is what the stream delivers,
so that what is read in place is what would have been copied.
-/

set_option autoImplicit false
set_option relaxedAutoImplicit false

namespace Elua.Lua

open Elua.Foundation Layout

/-- Between two parts of a load, behind a header of the machine's own format: nothing is swapped or
converted, `total` counts from the header on, the image in direct mode is what the stream delivers,
and the arrays found in it so far are aligned. -/
structure LoadState.Ready (S : LoadState) : Prop where
  swap : S.swap = false
  toflt : S.toflt = false
  total : S.zio.i = S.total + 12
  image : ∀ memory, S.zio.base = some memory → S.zio.content = memory.drop S.zio.i
  offsets : ∀ offset ∈ S.offsets, offset % 4 = 0

/-- A part of a load that takes a layout off the stream and returns a value. -/
def Reads {α : Type} (load : Load α) (piece : Layout) (value : α) : Prop :=
  ∀ S rest, S.Ready → S.zio.content = piece S.zio.i ++ rest →
    ∃ after, load S = .ok (value, after) ∧ after.Ready ∧ after.zio.content = rest ∧
      after.zio.i = piece.finish S.zio.i

section Reads

variable {α β : Type} {first : Load α} {next : α → Load β} {piece : Layout} {pieces : List Layout}
  {value : α} {result : β}

/-- Running on from a part that succeeds. -/
theorem load_bind_ok {S after : LoadState} (hfirst : first S = .ok (value, after)) :
    (first >>= next) S = next value after := by
  change (first S >>= fun result ↦ next result.1 result.2) = _
  rw [hfirst]
  rfl

/-- A part that looks at the stream it starts from. -/
theorem load_get_bind (S : LoadState) (next : LoadState → Load β) :
    (get >>= next) S = next S S :=
  rfl

/-- One part after the other. -/
theorem Reads.bind (hfirst : Reads first piece value)
    (hnext : Reads (next value) (sequence pieces) result) :
    Reads (first >>= next) (sequence (piece :: pieces)) result := by
  intro S rest hready hcontent
  rw [sequence_cons, List.append_assoc] at hcontent
  obtain ⟨between, hrun, hbetween, hrest, hi⟩ := hfirst S _ hready hcontent
  rw [← hi] at hrest
  obtain ⟨after, hrun', hafter, hrest', hi'⟩ := hnext between rest hbetween hrest
  refine ⟨after, (load_bind_ok hrun).trans hrun', hafter, hrest', ?_⟩
  rw [hi', hi, finish_sequence_cons]

theorem reads_pure (value : α) : Reads (pure value) (sequence []) value := by
  intro S rest hready hcontent
  exact ⟨S, rfl, hready, hcontent, rfl⟩

/-- A part that only computes with what another one has read. -/
theorem Reads.bindPure (hfirst : Reads first piece value)
    (hnext : ∀ S, next value S = .ok (result, S)) : Reads (first >>= next) piece result := by
  intro S rest hready hcontent
  obtain ⟨after, hrun, hafter⟩ := hfirst S rest hready hcontent
  exact ⟨after, (load_bind_ok hrun).trans (hnext after), hafter⟩

/-- A loop reads the layouts of its elements. -/
theorem reads_loadEach {Element : Type} (loadOne : Load α) (layout : Element → Layout)
    (valueOf : Element → α) (elements : List Element)
    (hone : ∀ element ∈ elements, Reads loadOne (layout element) (valueOf element)) :
    Reads (loadEach loadOne elements.length) (sequence (elements.map layout))
      (elements.map valueOf) := by
  induction elements with
  | nil => exact reads_pure []
  | cons element elements ih =>
    have hrest := ih fun other hother ↦ hone other (List.mem_cons_of_mem _ hother)
    exact (hone element List.mem_cons_self).bind (hrest.bindPure fun _ ↦ rfl)

end Reads

/-! ### Blocks and numbers -/

section Parts

variable (L : Loader)

/-- What `LoadBlock` does where the stream has the bytes. -/
theorem loadBlock_ok {S : LoadState} {size : ℕ} {bytes : List UInt8} {zio : Zio}
    (hread : luaZRead S.zio size = some (bytes, zio)) :
    loadBlock L size S = .ok (bytes, { S with zio := zio, total := S.total + size }) := by
  unfold loadBlock
  rw [load_get_bind, hread]
  rfl

theorem reads_loadBlock (bytes : List UInt8) :
    Reads (loadBlock L bytes.length) (block bytes) bytes := by
  intro S rest hready hcontent
  obtain ⟨zio, hread, hrest, hi, hbase⟩ := luaZRead_of_content hcontent
  refine ⟨_, loadBlock_ok L hread, ⟨hready.swap, hready.toflt, ?_, ?_, hready.offsets⟩, hrest, hi⟩
  · change zio.i = S.total + bytes.length + 12
    have htotal := hready.total
    change zio.i = S.zio.i + bytes.length at hi
    omega
  · intro memory hmemory
    change zio.base = some memory at hmemory
    rw [hbase] at hmemory
    change zio.content = memory.drop zio.i
    change zio.i = S.zio.i + bytes.length at hi
    rw [hi, ← List.drop_drop, ← hready.image memory hmemory, hcontent, hrest]
    exact List.drop_left.symm

theorem reads_loadMem {n size : ℕ} {bytes : List UInt8} (hlength : n * size = bytes.length) :
    Reads (loadMem L n size) (block bytes) bytes := by
  intro S rest hready hcontent
  obtain ⟨after, hrun, hafter⟩ := reads_loadBlock L bytes S rest hready hcontent
  refine ⟨after, ?_, hafter⟩
  unfold loadMem
  rw [hlength]
  refine (load_bind_ok hrun).trans ?_
  change (if after.swap = true then _ else _ : Load _) after = _
  rw [hafter.1.swap, if_neg Bool.false_ne_true]
  rfl

theorem reads_loadChar (byte : UInt8) : Reads (loadChar L) (block [byte]) byte := by
  have hbyte : UInt8.ofNat (fromMemory L.machine.littleEndian [byte]) = byte := by
    unfold fromMemory leValue leValue
    cases L.machine.littleEndian <;> simp
  refine (reads_loadMem L (Nat.mul_one 1 : 1 * 1 = [byte].length)).bindPure fun S ↦ ?_
  change Except.ok (UInt8.ofNat (fromMemory L.machine.littleEndian [byte]), S) = _
  rw [hbyte]

/-- An integer that a dump does not refuse is read back from its bytes. -/
theorem signedValue_residue_of_fits {x : ℤ} (hfits : IntFits x) :
    signedValue 4 (residue 4 x) = x := by
  unfold IntFits at hfits
  rw [signedValue_residue]
  exact Int.bmod_eq_of_le (by norm_num; omega) (by norm_num; omega)

theorem reads_loadInt {x : ℤ} (hfits : IntFits x) (hnonneg : 0 ≤ x) :
    Reads (loadInt L) (intLayout L.machine.littleEndian x) x := by
  refine (reads_loadMem L (Nat.one_mul 4 ▸ (length_inMemory ..).symm : 1 * 4 = _)).bindPure fun S ↦ ?_
  have hvalue : signedValue 4 (fromMemory L.machine.littleEndian
      (inMemory L.machine.littleEndian 4 (residue 4 x))) = x := by
    rw [fromMemory_inMemory, Nat.mod_eq_of_lt (residue_lt 4 x), signedValue_residue_of_fits hfits]
  change (if signedValue 4 (fromMemory L.machine.littleEndian
      (inMemory L.machine.littleEndian 4 (residue 4 x))) < 0 then _ else pure _ : Load _) S = _
  rw [hvalue, if_neg (by omega)]
  rfl

theorem reads_loadAlign4Loop (turns : ℕ) {S : LoadState} {rest : List UInt8}
    (hturns : (4 - S.zio.i % 4) % 4 ≤ turns) (hready : S.Ready)
    (hcontent : S.zio.content = align 4 S.zio.i ++ rest) :
    ∃ after, loadAlign4Loop L turns S = .ok ((), after) ∧ after.Ready ∧
      after.zio.content = rest ∧ after.zio.i = (align 4).finish S.zio.i := by
  have htotal := hready.total
  induction turns generalizing S with
  | zero =>
    have haligned : S.zio.i % 4 = 0 := by omega
    rw [align_of_mod_eq_zero haligned] at hcontent
    refine ⟨S, rfl, hready, hcontent, ?_⟩
    rw [finish_align]
    omega
  | succ turns ih =>
    by_cases haligned : S.zio.i % 4 = 0
    · rw [align_of_mod_eq_zero haligned] at hcontent
      refine ⟨S, ?_, hready, hcontent, ?_⟩
      · change (if S.total % 4 = 0 then _ else _ : Load Unit) S = _
        rw [if_pos (by omega)]
        rfl
      · rw [finish_align]
        omega
    · rw [align_of_mod_ne_zero (by decide) haligned] at hcontent
      obtain ⟨between, hrun, hbetween, hrest, hi⟩ := reads_loadChar L 0 S _ hready hcontent
      rw [finish_block, List.length_singleton] at hi
      rw [← hi] at hrest
      obtain ⟨after, hrun', hafter, hrest', hi'⟩ :=
        ih (by omega) hbetween hrest hbetween.total
      refine ⟨after, ?_, hafter, hrest', ?_⟩
      · change (if S.total % 4 = 0 then _ else _ : Load Unit) S = _
        rw [if_neg (by omega)]
        exact (load_bind_ok hrun).trans hrun'
      · rw [hi', hi, finish_align, finish_align]
        omega

theorem reads_loadAlign4 : Reads (loadAlign4 L) (align 4) () := by
  intro S rest hready hcontent
  exact reads_loadAlign4Loop L 3 (by omega) hready hcontent

/-- An array behind its padding: it is read from the image or copied, and starts aligned. -/
theorem Reads.alignedArray {β : Type} {n : ℕ} {bytes : List UInt8} {next : List UInt8 → Load β}
    {pieces : List Layout} {result : β} (hlength : n * 4 = bytes.length)
    (hnext : Reads (next bytes) (sequence pieces) result) :
    Reads (loadAlign4 L >>= fun _ ↦ loadArray L n >>= next)
      (sequence (align 4 :: block bytes :: pieces)) result := by
  have harray : ∀ S rest, S.Ready → S.zio.i % 4 = 0 → S.zio.content = bytes ++ rest →
      ∃ after, loadArray L n S = .ok (bytes, after) ∧ after.Ready ∧ after.zio.content = rest ∧
        after.zio.i = S.zio.i + bytes.length := by
    intro S rest hready haligned hcontent
    cases hbase : S.zio.base with
    | none =>
      obtain ⟨after, hrun, hafter⟩ := reads_loadMem L hlength S rest hready hcontent
      refine ⟨after, ?_, hafter⟩
      unfold loadArray Zio.crtMemory
      rw [load_get_bind, hbase]
      exact hrun
    | some image =>
      obtain ⟨after, hrun, hafter, hrest, hi⟩ := reads_loadBlock L bytes S rest hready hcontent
      refine ⟨{ after with offsets := after.offsets ++ [S.zio.i] }, ?_,
        ⟨hafter.swap, hafter.toflt, hafter.total, hafter.image, ?_⟩, hrest, hi⟩
      · have hmemory : (image.drop S.zio.i).take (n * 4) = bytes := by
          rw [← hready.image image hbase, hcontent, hlength, List.take_left]
        unfold loadArray Zio.crtMemory
        rw [load_get_bind, hbase, hlength]
        refine (load_bind_ok hrun).trans ?_
        change Except.ok ((image.drop S.zio.i).take (bytes.length), _) = _
        rw [← hlength, hmemory]
      · intro offset hmem
        rcases List.mem_append.mp hmem with hold | hnew
        · exact hafter.offsets offset hold
        · rw [List.eq_of_mem_singleton hnew]
          exact haligned
  intro S rest hready hcontent
  rw [sequence_cons, List.append_assoc] at hcontent
  obtain ⟨padded, hrun, hpadded, hrest, hi⟩ := reads_loadAlign4 L S _ hready hcontent
  rw [← hi, sequence_cons, List.append_assoc] at hrest
  have haligned : padded.zio.i % 4 = 0 := by
    rw [hi]
    exact finish_align_mod (by decide) _
  obtain ⟨loaded, hrun', hloaded, hrest', hi'⟩ := harray padded _ hpadded haligned hrest
  rw [finish_block, ← hi'] at hrest'
  obtain ⟨after, hrun'', hafter, hrest'', hi''⟩ := hnext loaded rest hloaded hrest'
  refine ⟨after, ?_, hafter, hrest'', ?_⟩
  · exact (load_bind_ok hrun).trans ((load_bind_ok hrun').trans hrun'')
  · rw [hi'', hi', hi, finish_sequence_cons, finish_sequence_cons, finish_block]

/-! ### Strings, numbers and arrays -/

theorem stringLimit_lt (m : Machine) : m.stringLimit < 2 ^ 32 := by
  unfold Machine.stringLimit
  split <;> norm_num

theorem reads_loadString {s : TString} (hfits : StringFits L.machine.stringLimit s) :
    Reads (loadString L) (stringLayout L.machine.littleEndian s) s := by
  have hsize : ∀ size, size < 2 ^ 32 → fromMemory L.machine.littleEndian
      (inMemory L.machine.littleEndian 4 size) = size := by
    intro size hlt
    rw [fromMemory_inMemory]
    exact Nat.mod_eq_of_lt hlt
  cases s with
  | none =>
    refine (reads_loadMem L (Nat.one_mul 4 ▸ (length_inMemory ..).symm : 1 * 4 = _)).bindPure fun S ↦ ?_
    change (if fromMemory L.machine.littleEndian (inMemory L.machine.littleEndian 4 0) = 0
      then pure none else _ : Load _) S = _
    rw [hsize 0 (by norm_num), if_pos rfl]
    rfl
  | some bytes =>
    have hlength := hfits bytes rfl
    refine (reads_loadMem L (Nat.one_mul 4 ▸ (length_inMemory ..).symm : 1 * 4 = _)).bind ?_
    rw [hsize _ (Nat.lt_of_le_of_lt hlength (stringLimit_lt _))]
    rw [if_neg (Nat.succ_ne_zero _), if_neg (by omega)]
    intro S rest hready hcontent
    rw [sequence_cons, sequence_nil, List.append_nil] at hcontent
    obtain ⟨after, hrun, hafter, hrest, hi⟩ :=
      reads_loadBlock L (bytes ++ [0]) S rest hready hcontent
    rw [List.length_append, List.length_singleton] at hrun
    refine ⟨after, ?_, hafter, hrest, by rw [hi, finish_sequence_cons, finish_sequence_nil]⟩
    rw [load_get_bind, load_bind_ok hrun]
    unfold Zio.crtMemory
    cases hbase : S.zio.base with
    | none =>
      change Except.ok (some ((bytes ++ [0]).take bytes.length), after) = _
      rw [List.take_left]
    | some image =>
      change Except.ok (some ((image.drop S.zio.i).take bytes.length), after) = _
      rw [← hready.image image hbase, hcontent]
      unfold block
      rw [List.append_assoc, List.take_left]

variable {Number : Type} (host : Host Number)

theorem length_numberBytes (m : Machine) (x : Number) (hformat : m.format ≠ .int64) :
    (host.numberBytes m x).length = m.format.size := by
  unfold Host.numberBytes
  cases hcase : m.format with
  | int64 => exact absurd hcase hformat
  | double =>
    have hlength := length_inMemory m.littleEndian 8 (host.toDouble x).toNat
    dsimp only
    split
    · unfold swapHalves
      rw [List.length_append, List.length_drop, List.length_take, hlength]
      rfl
    · exact hlength
  | int8 | int16 | int32 | float => exact length_inMemory ..

/-- The number a machine has in memory after loading the bytes dumped for it. -/
theorem numberIn_numberBytes (m : Machine) (x : Number) (hformat : m.format ≠ .int64) :
    m.numberIn (host.numberBytes m x) = host.convert m.format x := by
  have hinteger : ∀ width, signedValue width (fromMemory m.littleEndian
      (inMemory m.littleEndian width (residue width (host.toInt x)))) =
        (host.toInt x).bmod (256 ^ width) := by
    intro width
    rw [fromMemory_inMemory, Nat.mod_eq_of_lt (residue_lt width _), signedValue_residue]
  unfold Machine.numberIn Host.numberBytes Host.convert
  cases hcase : m.format with
  | int64 => exact absurd hcase hformat
  | int8 => exact congrArg TargetNumber.integer (hinteger 1)
  | int16 => exact congrArg TargetNumber.integer (hinteger 2)
  | int32 => exact congrArg TargetNumber.integer (hinteger 4)
  | float =>
    have hbits : (host.toFloat x).toNat < 256 ^ 4 := UInt32.toNat_lt _
    dsimp only
    rw [fromMemory_inMemory, Nat.mod_eq_of_lt hbits, UInt32.ofNat_toNat]
  | double =>
    have hbits : (host.toDouble x).toNat < 256 ^ 8 := UInt64.toNat_lt _
    have hunswapped : (if m.isArmFpa then swapHalves
        (if m.isArmFpa then swapHalves (inMemory m.littleEndian 8 (host.toDouble x).toNat)
          else inMemory m.littleEndian 8 (host.toDouble x).toNat)
        else if m.isArmFpa then swapHalves (inMemory m.littleEndian 8 (host.toDouble x).toNat)
          else inMemory m.littleEndian 8 (host.toDouble x).toNat) =
        inMemory m.littleEndian 8 (host.toDouble x).toNat := by
      cases m.isArmFpa with
      | false => rfl
      | true => exact swapHalves_swapHalves (length_inMemory ..)
    dsimp only
    rw [hunswapped, fromMemory_inMemory, Nat.mod_eq_of_lt hbits, UInt64.ofNat_toNat]

theorem reads_loadNumber (x : Number) (hformat : L.machine.format ≠ .int64) :
    Reads (loadNumber L) (block (host.numberBytes L.machine x))
      (host.convert L.machine.format x) := by
  have hlength := (length_numberBytes host L.machine x hformat).symm
  have hload : Reads (loadMem L 1 L.machine.format.size >>= fun bytes ↦
      pure (L.machine.numberIn bytes)) (block (host.numberBytes L.machine x))
      (host.convert L.machine.format x) :=
    (reads_loadMem L ((Nat.one_mul _).trans hlength)).bindPure fun S ↦ by
      rw [numberIn_numberBytes host L.machine x hformat]
      rfl
  intro S rest hready hcontent
  obtain ⟨after, hrun, hafter⟩ := hload S rest hready hcontent
  refine ⟨after, ?_, hafter⟩
  change (if S.toflt = true then _ else _ : Load _) S = _
  rw [hready.toflt, if_neg Bool.false_ne_true]
  exact hrun

/-- A constant of the host converted for a target. -/
def Constant.convert (format : NumberFormat) : Constant Number → Constant TargetNumber
  | nil => nil
  | boolean value => boolean value
  | number x => number (host.convert format x)
  | string s => string s

theorem reads_loadConstant (o : Constant Number)
    (hnumber : L.machine.format = .int64 → ∀ x, o ≠ .number x)
    (hfits : ∀ s, .string s = o → StringFits L.machine.stringLimit s) :
    Reads (loadConstant L)
      (constantLayout L.machine.littleEndian (host.numberBytes L.machine) o)
      (o.convert host L.machine.format) := by
  cases o with
  | nil => exact (reads_loadChar L luaTnil).bind (reads_pure Constant.nil)
  | boolean value =>
    refine (reads_loadChar L luaTboolean).bind ?_
    refine (reads_loadChar L (if value then 1 else 0)).bind ?_
    have hvalue : decide ((if value then 1 else 0 : UInt8) ≠ 0) = value := by
      cases value <;> rfl
    rw [hvalue]
    exact reads_pure (Constant.boolean value)
  | number x =>
    have hformat : L.machine.format ≠ .int64 := fun hint64 ↦ hnumber hint64 x rfl
    refine (reads_loadChar L luaTnumber).bind ?_
    exact (reads_loadNumber L host x hformat).bind (reads_pure (Constant.number _))
  | string s =>
    refine (reads_loadChar L luaTstring).bind ?_
    exact (reads_loadString L (hfits s rfl)).bind (reads_pure (Constant.string s))

theorem reads_loadLocVar (locvar : LocVar) (hfits : StringFits L.machine.stringLimit locvar.varname)
    (hints : IntFits locvar.startpc ∧ IntFits locvar.endpc)
    (hnonneg : 0 ≤ locvar.startpc ∧ 0 ≤ locvar.endpc) :
    Reads (loadLocVar L) (locVarLayout L.machine.littleEndian locvar) locvar :=
  (reads_loadString L hfits).bind ((reads_loadInt L hints.1 hnonneg.1).bind
    ((reads_loadInt L hints.2 hnonneg.2).bind (reads_pure locvar)))

/-- Blocks after each other are a block. -/
theorem sequence_map_block {Element : Type} (bytes : Element → List UInt8)
    (elements : List Element) :
    sequence (elements.map fun element ↦ block (bytes element)) =
      block (elements.flatMap bytes) := by
  funext start
  induction elements generalizing start with
  | nil => rfl
  | cons element elements ih =>
    rw [List.map_cons, sequence_cons, ih]
    rfl

/-- The elements of an array in memory. -/
theorem elements_flatMap {Element : Type} (m : Machine) (valueOf : Element → ℕ)
    (elements : List Element) (hvalue : ∀ element ∈ elements, valueOf element < 2 ^ 32) :
    m.elements elements.length
        (elements.flatMap fun element ↦ inMemory m.littleEndian 4 (valueOf element)) =
      elements.map valueOf := by
  induction elements with
  | nil => rfl
  | cons element elements ih =>
    have hfirst : valueOf element < 256 ^ 4 := hvalue element List.mem_cons_self
    rw [List.length_cons, List.flatMap_cons, List.map_cons, Machine.elements,
      List.take_left' (length_inMemory ..), List.drop_left' (length_inMemory ..),
      fromMemory_inMemory, Nat.mod_eq_of_lt hfirst,
      ih fun other hother ↦ hvalue other (List.mem_cons_of_mem _ hother)]

theorem length_flatMap_inMemory {Element : Type} (littleEndian : Bool) (valueOf : Element → ℕ)
    (elements : List Element) :
    elements.length * 4 =
      (elements.flatMap fun element ↦ inMemory littleEndian 4 (valueOf element)).length := by
  induction elements with
  | nil => rfl
  | cons element elements ih =>
    rw [List.flatMap_cons, List.length_append, length_inMemory, ← ih, List.length_cons]
    omega

theorem reads_loadCode (code : List UInt32) (hfits : IntFits code.length) :
    Reads (loadCode L) (codeLayout L.machine.littleEndian code) code := by
  unfold codeLayout sizeofInstruction
  rw [sequence_map_block]
  refine (reads_loadInt L hfits (Int.natCast_nonneg _)).bind ?_
  rw [Int.toNat_natCast]
  refine Reads.alignedArray L (length_flatMap_inMemory _ UInt32.toNat code) ?_
  have hcode : (L.machine.elements code.length (code.flatMap fun instruction ↦
      inMemory L.machine.littleEndian 4 instruction.toNat)).map UInt32.ofNat = code := by
    rw [elements_flatMap L.machine UInt32.toNat code fun instruction _ ↦ UInt32.toNat_lt _,
      List.map_map]
    exact List.map_id'' (fun instruction ↦ UInt32.ofNat_toNat) code
  rw [hcode]
  exact reads_pure code

/-- The integers that `LoadInt` reads are not negative. -/
structure FunctionBody.NonNegative (f : FunctionBody Number) : Prop where
  linedefined : 0 ≤ f.linedefined
  lastlinedefined : 0 ≤ f.lastlinedefined
  locvars : ∀ locvar ∈ f.locvars, 0 ≤ locvar.startpc ∧ 0 ≤ locvar.endpc

/-- A function with its numbers converted for a target. -/
def FunctionBody.convert (format : NumberFormat) (f : FunctionBody Number) :
    FunctionBody TargetNumber :=
  { f with k := f.k.map (Constant.convert host format) }

/-- A prototype with its numbers converted for a target. -/
def Proto.convert (format : NumberFormat) (f : Proto Number) : Proto TargetNumber :=
  f.map (FunctionBody.convert host format)

/-- What a loader needs of one function to load it back. -/
structure Loadable (f : Proto Number) : Prop where
  ints : f.IntsFit
  nonNegative : f.body.NonNegative
  strings : f.body.StringsFit L.machine.stringLimit
  source : f.body.source ≠ none
  numbers : L.machine.format = .int64 → ∀ x, .number x ∉ f.body.k
  code : L.checkcode (f.convert host L.machine.format) = true

variable {host L}

theorem reads_loadDebug {f : Proto Number} (hloadable : Loadable L host f) :
    Reads (loadDebug L) (debugLayout L.machine.littleEndian f.body)
      (f.body.lineinfo, f.body.locvars, f.body.upvalues) := by
  have hints := hloadable.ints
  have hlines : (L.machine.elements f.body.lineinfo.length (f.body.lineinfo.flatMap fun line ↦
      inMemory L.machine.littleEndian 4 (residue 4 line))).map (signedValue 4) =
        f.body.lineinfo := by
    rw [elements_flatMap L.machine (residue 4) _ fun line _ ↦ residue_lt 4 line, List.map_map]
    have hline : ∀ line ∈ f.body.lineinfo, (signedValue 4 ∘ residue 4) line = id line := by
      intro line hmem
      rw [Function.comp_apply, signedValue_residue_of_fits (hints.lineinfo line hmem)]
      rfl
    rw [List.map_congr_left hline, List.map_id]
  have hlocvars := reads_loadEach (loadLocVar L) _ id f.body.locvars fun locvar hmem ↦
    reads_loadLocVar L locvar (hloadable.strings.locvars locvar hmem) (hints.locvars locvar hmem)
      (hloadable.nonNegative.locvars locvar hmem)
  have hupvalues := reads_loadEach (loadString L) _ id f.body.upvalues fun name hmem ↦
    reads_loadString L (hloadable.strings.upvalues name hmem)
  rw [List.map_id] at hlocvars hupvalues
  unfold debugLayout intLayout
  rw [sequence_map_block]
  refine (reads_loadInt L hints.sizelineinfo (Int.natCast_nonneg _)).bind ?_
  rw [Int.toNat_natCast]
  refine Reads.alignedArray L (length_flatMap_inMemory _ (residue 4) _) ?_
  refine (reads_loadInt L hints.sizelocvars (Int.natCast_nonneg _)).bind ?_
  rw [Int.toNat_natCast]
  refine hlocvars.bind ?_
  refine (reads_loadInt L hints.upvalues (Int.natCast_nonneg _)).bind ?_
  rw [Int.toNat_natCast]
  refine hupvalues.bind ?_
  rw [hlines]
  exact reads_pure _

/-- The source that a nested function is loaded with. -/
theorem source_of_sourceInside {outer source : TString} (hsource : source ≠ none) :
    (if sourceInside outer source = none then outer else sourceInside outer source) = source := by
  unfold sourceInside
  by_cases hsame : source = outer
  · rw [if_pos hsame, if_pos rfl, hsame]
  · rw [if_neg hsame, if_neg hsource]

mutual

/-- A function is read off the stream, with any string that makes the loader find its source. -/
theorem reads_loadFunction : ∀ (f : Proto Number) (levels : ℕ) (p source : TString),
    (if source = none then p else source) = f.body.source → f.depth ≤ levels →
    (∀ g ∈ f.functions, Loadable L host g) →
    Reads (loadFunction L levels p)
      (functionLayout L.machine.littleEndian (host.numberBytes L.machine) source f)
      (f.convert host L.machine.format)
  | .mk f fs, levels, p, source, hsource, hdepth, hall => by
    rw [Proto.functions, List.forall_mem_cons] at hall
    obtain ⟨hloadable, hinside⟩ := hall
    obtain ⟨levels, rfl⟩ : ∃ more, levels = more + 1 := by
      rw [Proto.depth] at hdepth
      exact ⟨levels - 1, by omega⟩
    rw [Proto.depth] at hdepth
    have hstring : StringFits L.machine.stringLimit source := by
      intro bytes hbytes
      rw [hbytes, if_neg (Option.some_ne_none _)] at hsource
      exact hloadable.strings.source bytes hsource.symm
    have hints := hloadable.ints
    have hconstants := reads_loadEach (loadConstant L) _
      (Constant.convert host L.machine.format) f.k fun o hmem ↦
        reads_loadConstant L host o
          (fun hint64 x hx ↦ hloadable.numbers hint64 x (hx ▸ hmem))
          fun s hs ↦ hloadable.strings.k s (hs ▸ hmem)
    have hnested := reads_loadFunctions fs levels f.source (by omega) hinside
    have hpair : Reads (loadConstants L (loadFunction L levels f.source))
        (sequence [intLayout L.machine.littleEndian f.k.length,
          sequence (f.k.map (constantLayout L.machine.littleEndian (host.numberBytes L.machine))),
          intLayout L.machine.littleEndian (functionLayouts L.machine.littleEndian
            (host.numberBytes L.machine) f.source fs).length,
          sequence (functionLayouts L.machine.littleEndian (host.numberBytes L.machine) f.source
            fs)])
        (f.k.map (Constant.convert host L.machine.format),
          Proto.mapAll (FunctionBody.convert host L.machine.format) fs) := by
      rw [length_functionLayouts]
      refine (reads_loadInt L hints.k (Int.natCast_nonneg _)).bind ?_
      rw [Int.toNat_natCast]
      refine hconstants.bind ((reads_loadInt L hints.nested (Int.natCast_nonneg _)).bind ?_)
      rw [Int.toNat_natCast]
      exact hnested.bind (reads_pure _)
    rw [functionLayout, loadFunction]
    refine (reads_loadString L hstring).bind ?_
    dsimp only
    rw [hsource]
    refine (reads_loadInt L hints.linedefined hloadable.nonNegative.linedefined).bind
      ((reads_loadInt L hints.lastlinedefined hloadable.nonNegative.lastlinedefined).bind
      ((reads_loadChar L f.nups).bind ((reads_loadChar L f.numparams).bind
      ((reads_loadChar L f.isVararg).bind ((reads_loadChar L f.maxstacksize).bind
      ((reads_loadCode L f.code hints.code).bind (hpair.bind
      ((reads_loadDebug hloadable).bind ?_))))))))
    have hcode := hloadable.code
    unfold Proto.convert at hcode ⊢
    rw [Proto.map] at hcode ⊢
    change Reads (if L.checkcode (.mk (f.convert host L.machine.format)
      (Proto.mapAll (FunctionBody.convert host L.machine.format) fs)) = true then
        pure (Proto.mk (f.convert host L.machine.format)
          (Proto.mapAll (FunctionBody.convert host L.machine.format) fs))
      else loadError L "bad code") (sequence []) _
    rw [if_pos hcode]
    exact reads_pure _

/-- The functions defined inside another are read in the loop of `LoadConstants`. -/
theorem reads_loadFunctions : ∀ (fs : List (Proto Number)) (levels : ℕ) (outer : TString),
    Proto.depthOf fs ≤ levels → (∀ g ∈ Proto.functionsOf fs, Loadable L host g) →
    Reads (loadEach (loadFunction L levels outer) fs.length)
      (sequence (functionLayouts L.machine.littleEndian (host.numberBytes L.machine) outer fs))
      (Proto.mapAll (FunctionBody.convert host L.machine.format) fs)
  | [], levels, outer, _, _ => reads_pure []
  | f :: fs, levels, outer, hdepth, hall => by
    rw [Proto.depthOf] at hdepth
    rw [Proto.functionsOf, List.forall_mem_append] at hall
    have hloadable : Loadable L host f := by
      cases f
      rw [Proto.functions, List.forall_mem_cons] at hall
      exact hall.1.1
    have hfirst := reads_loadFunction f levels outer (sourceInside outer f.body.source)
      (source_of_sourceInside hloadable.source) (by omega) hall.1
    have hrest := reads_loadFunctions fs levels outer (by omega) hall.2
    rw [functionLayouts, Proto.mapAll]
    exact hfirst.bind (hrest.bindPure fun _ ↦ rfl)

end

/-! ### The header and the whole chunk -/

/-- A header of the machine's own format is accepted and calls for no conversion. -/
theorem loadHeader_own {S : LoadState} {rest : List UInt8} (hi : S.zio.i = 0)
    (hoffsets : S.offsets = [])
    (himage : ∀ memory, S.zio.base = some memory → S.zio.content = memory)
    (hcontent : S.zio.content = luaUHeader L.machine ++ rest) :
    ∃ after, (loadHeader L >>= fun _ ↦ modify fun S ↦ { S with total := 0 }) S = .ok ((), after) ∧
      after.Ready ∧ after.zio.content = rest ∧ after.zio.i = 12 := by
  obtain ⟨zio, hread, hrest, hzio, hbase⟩ := luaZRead_of_content hcontent
  have hblock := loadBlock_ok L hread
  have hrun : loadHeader L S = .ok ((), { S with
      zio := zio
      swap := false
      numsize := ((luaUHeader L.machine).getD 10 0).toNat
      toflt := false
      total := S.total + 12 }) := by
    refine (load_bind_ok hblock).trans ?_
    have hswap : (luaUHeader L.machine).set 6 ((luaUHeader L.machine).getD 6 0) =
        luaUHeader L.machine := rfl
    have hsize : (luaUHeader L.machine).set 10 ((luaUHeader L.machine).getD 10 0) =
        luaUHeader L.machine := rfl
    have hnotless : ¬ L.machine.charValue ((luaUHeader L.machine).getD 11 0) >
        L.machine.charValue ((luaUHeader L.machine).getD 11 0) := Int.lt_irrefl _
    simp only [hswap, hsize, hnotless, ne_eq, not_true_eq_false, decide_false, if_false]
    rfl
  refine ⟨_, load_bind_ok hrun, ⟨rfl, rfl, ?_, ?_, ?_⟩, hrest, ?_⟩
  · change zio.i = 0 + 12
    rw [hzio, hi]
    rfl
  · intro memory hmemory
    change zio.base = some memory at hmemory
    rw [hbase] at hmemory
    have hall := himage memory hmemory
    change zio.content = memory.drop zio.i
    rw [hrest, hzio, hi, ← hall, hcontent, Nat.zero_add, List.drop_left]
  · intro offset hmem
    change offset ∈ S.offsets at hmem
    rw [hoffsets] at hmem
    exact absurd hmem List.not_mem_nil
  · change zio.i = 12
    rw [hzio, hi]
    rfl

end Parts

end Elua.Lua
