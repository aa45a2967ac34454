import Elua.CommonFs.PatternMatches
import Elua.CommonFs.Paths
import Elua.Foundation.TextBuffer
import Elua.Foundation.Word32

/-!
# Joining paths in memory

`cmn_fs_path_join` counts what the elements take, gets a buffer of that size and two bytes more, and
writes the elements behind each other, each with one slash behind it. The count is a number of 32
bits.

What is written has exactly the counted length (`length_written`), so it fits the buffer if the
count does not wrap, and the function joins as the model of it that the walker uses
(`cmnFsPathJoin_refines`). `JoinRight` says that nothing is written outside of the buffer, and, where
no element begins or ends with two slashes, what the path is and when there is none; `joinRight_iff`
is the exact condition. -/

set_option autoImplicit false
set_option relaxedAutoImplicit false

namespace Elua.CommonFs

open Foundation

/-! ### The function -/

/-- What `malloc` returns for a size: null, or the contents of a block of this size. -/
structure Heap where
  malloc : ℕ → Option (List UInt8)
  length_malloc : ∀ {size : ℕ} {block : List UInt8}, malloc size = some block → block.length = size
  size_lt : ∀ {size : ℕ} {block : List UInt8}, malloc size = some block → size < 2 ^ 32

/-- One turn of the loop that counts. -/
def countElement (total : ℕ) (tmp : CString) : ℕ :=
  if 0 < tmp.strlen then
    let total := add32 total (tmp.strlen + if lastchar tmp.bytes = slash then 0 else 1)
    if firstchar tmp.bytes = slash then sub32 total 1 else total
  else total

/-- One turn of the loop that writes. -/
def writeElement (res : List UInt8) (tmp : CString) : Option (List UInt8) :=
  if 0 < tmp.strlen then
    (strcat res (if firstchar tmp.bytes = slash then tmp.bytes.tail else tmp.bytes)).bind fun res ↦
      if lastchar (textOf res) ≠ slash then strcat res [slash] else some res
  else some res

/-- What is written into the buffer. -/
def writePath (elements : List CString) (block : List UInt8) : Option (List UInt8) :=
  (strcpy block [slash]).bind fun res ↦
    (elements.foldlM writeElement res).bind cutLast

/-- What `cmn_fs_path_join` leads to: null, a byte outside of the buffer, or the buffer. -/
inductive Joined
  | null
  | overrun
  | path (res : List UInt8)
  deriving DecidableEq

/-- `cmn_fs_path_join`. -/
def Heap.cmnFsPathJoin (heap : Heap) (elements : List CString) : Joined :=
  let total := elements.foldl countElement 0
  if total = 0 then .null
  else
    match heap.malloc (add32 total 2) with
    | none => .null
    | some block =>
      match writePath elements block with
      | none => .overrun
      | some res => .path res

/-! ### What a join owes -/

/-- An element that adds nothing. -/
def Blank (element : Path) : Prop := element = [] ∨ element = [slash]

instance (element : Path) : Decidable (Blank element) :=
  inferInstanceAs (Decidable (_ ∨ _))

/-- An element neither begins nor ends with more than one slash. -/
def SingleSlashes (element : Path) : Prop :=
  ¬[slash, slash] <+: element ∧ ¬[slash, slash] <:+ element

/-- An element without the slash at its beginning. -/
def unled (element : Path) : Path := if firstchar element = slash then element.tail else element

/-- An element without the slashes at its beginning and at its end. -/
def stripped (element : Path) : Path :=
  if lastchar (unled element) = slash then (unled element).dropLast else unled element

/-- The elements that add something, without their slashes. -/
def parts (elements : List CString) : List Path :=
  ((elements.map CString.bytes).filter (¬Blank ·)).map stripped

/-- A slash and the parts, with a slash between two of them. -/
def cleanPath (elements : List CString) : Path := slash :: [slash].intercalate (parts elements)

/-- What the elements take, each without its slash at the beginning and with one at its end. -/
def room (elements : List CString) : ℕ := (elements.map fun e ↦ elementLength e.bytes).sum

/-- No byte is written outside of the buffer. If no element begins or ends with more than one slash,
the path is null exactly if no element adds anything or there is no memory, and otherwise it is the
clean path, which has one slash at its beginning and none at its end. -/
structure JoinRight (heap : Heap) (elements : List CString) : Prop where
  fits : heap.cmnFsPathJoin elements ≠ .overrun
  null_iff : (∀ e ∈ elements, SingleSlashes e.bytes) →
    (heap.cmnFsPathJoin elements = .null ↔
      (∀ e ∈ elements, Blank e.bytes) ∨ heap.malloc (room elements + 2) = none)
  joins : (∀ e ∈ elements, SingleSlashes e.bytes) → ∀ res,
    heap.cmnFsPathJoin elements = .path res →
      HoldsText res (cleanPath elements) ∧ firstchar (cleanPath elements).tail ≠ slash ∧
        lastchar (cleanPath elements) ≠ slash

/-- The buffer is large enough, or none is got. -/
def RoomCounts (heap : Heap) (elements : List CString) : Prop :=
  room elements + 2 < 2 ^ 32 ∨ room elements % 2 ^ 32 = 0 ∨
    heap.malloc ((room elements + 2) % 2 ^ 32) = none

/-! ### Counting -/

section Counting

theorem strlen_pos_iff {e : CString} : 0 < e.strlen ↔ e.bytes ≠ [] := List.length_pos_iff

/-- An element is counted with what it takes. -/
theorem countElement_eq {total : ℕ} (htotal : total < 2 ^ 32) (e : CString) :
    countElement total e = (total + elementLength e.bytes) % 2 ^ 32 := by
  unfold countElement elementLength
  by_cases hempty : e.bytes = []
  · rw [if_neg (by rwa [strlen_pos_iff, not_not]), if_pos hempty, Nat.add_zero,
      Nat.mod_eq_of_lt htotal]
  · have hpos : 0 < e.strlen := strlen_pos_iff.mpr hempty
    have hlength : e.bytes.length = e.strlen := rfl
    rw [if_pos hpos, if_neg hempty, hlength]
    unfold add32 sub32
    dsimp only
    split_ifs <;> omega

/-- The count is what the elements take, as a word. -/
theorem foldl_countElement (elements : List CString) {total : ℕ} (htotal : total < 2 ^ 32) :
    elements.foldl countElement total = (total + room elements) % 2 ^ 32 := by
  induction elements generalizing total with
  | nil => exact (Nat.mod_eq_of_lt htotal).symm
  | cons e elements ih =>
    rw [List.foldl_cons, countElement_eq htotal, ih (Nat.mod_lt _ (by norm_num)), room, room,
      List.map_cons, List.sum_cons, Nat.mod_add_mod, Nat.add_assoc]

theorem total_eq (elements : List CString) :
    elements.foldl countElement 0 = room elements % 2 ^ 32 := by
  rw [foldl_countElement elements (by norm_num), Nat.zero_add]

end Counting

/-! ### Writing -/

section Writing

variable {text : Path} {e : CString}

theorem appendElement_eq (text : Path) {element : Path} (hne : element ≠ []) :
    appendElement text element = withSlash (text ++ unled element) := if_neg hne

theorem unled_subset (element : Path) : unled element ⊆ element := by
  unfold unled
  split_ifs
  · exact (List.tail_sublist element).subset
  · exact List.Subset.refl element

theorem length_appendElement_le (text : Path) (e : CString) :
    text.length ≤ (appendElement text e.bytes).length := by
  by_cases hempty : e.bytes = []
  · exact Nat.le_of_eq (congrArg List.length (if_pos hempty).symm)
  · rw [appendElement_eq text hempty]
    exact ((List.prefix_append ..).trans (prefix_withSlash _)).length_le

/-- Writing an element appends it to the text. -/
theorem writesText_writeElement {res : List UInt8} (hholds : HoldsText res text) (e : CString) :
    WritesText res.length (appendElement text e.bytes) (writeElement res e) := by
  unfold writeElement
  by_cases hempty : e.bytes = []
  · rw [if_neg (by rwa [strlen_pos_iff, not_not]), hempty]
    exact hholds.writesText_some
  · have hzero : (0 : UInt8) ∉ unled e.bytes := fun hmem ↦
      e.zero_notMem (unled_subset e.bytes hmem)
    rw [if_pos (strlen_pos_iff.mpr hempty), appendElement_eq text hempty]
    refine (hholds.writesText_strcat hzero).bind (prefix_withSlash _).length_le
      fun other hlength hother ↦ ?_
    rw [hother.textOf_eq, ← hlength]
    unfold withSlash
    split_ifs with hslash
    · exact absurd hslash ‹_›
    · exact hother.writesText_some
    · exact hother.writesText_strcat (by decide)

/-- The text before its last slash is removed. -/
def written (elements : List CString) : Path :=
  elements.foldl (fun text e ↦ appendElement text e.bytes) [slash]

theorem joined_eq (elements : List CString) :
    joined (elements.map CString.bytes) = (written elements).dropLast := by
  unfold joined written
  rw [List.foldl_map]

/-- The text is written if it fits with its zero. -/
theorem writesText_written (elements : List CString) (block : List UInt8) :
    WritesText block.length (written elements)
      ((strcpy block [slash]).bind fun res ↦ elements.foldlM writeElement res) := by
  have hstart : WritesText block.length [slash] (strcpy block [slash]) :=
    writesText_strcpy (by decide)
  refine hstart.bind (length_le_foldl length_appendElement_le elements [slash])
    fun res hlength hholds ↦ ?_
  rw [← hlength]
  exact writesText_foldlM length_appendElement_le writesText_writeElement elements hholds

/-- The buffer holds the path if the text with its zero fits. -/
theorem exists_writePath {elements : List CString} {block : List UInt8}
    (hfits : (written elements).length < block.length) :
    ∃ res, writePath elements block = some res ∧
      HoldsText res (joined (elements.map CString.bytes)) := by
  obtain ⟨full, hfull, hlength, hholds⟩ := (writesText_written elements block).holds hfits
  have hshorter : (written elements).dropLast.length < full.length := by
    rw [List.length_dropLast, hlength]
    omega
  obtain ⟨res, hcut, -, hpath⟩ := hholds.writesText_cutLast.holds hshorter
  refine ⟨res, ?_, ?_⟩
  · unfold writePath
    rw [← Option.bind_assoc, hfull]
    exact hcut
  · rw [joined_eq]
    exact hpath

theorem writePath_eq_none {elements : List CString} {block : List UInt8}
    (hlong : block.length ≤ (written elements).length) : writePath elements block = none := by
  unfold writePath
  rw [← Option.bind_assoc, (writesText_written elements block).overruns hlong]
  rfl

end Writing

/-! ### Lengths -/

section Lengths

variable {text element : Path}

theorem lastchar_append (text : Path) (hne : element ≠ []) :
    lastchar (text ++ element) = lastchar element := by
  unfold lastchar
  rw [List.getLastD_eq_getLast?, List.getLastD_eq_getLast?,
    List.getLast?_append_of_ne_nil _ hne]

theorem firstchar_append (hne : element ≠ []) (text : Path) :
    firstchar (element ++ text) = firstchar element := by
  cases element with
  | nil => exact absurd rfl hne
  | cons c element => rfl

theorem firstchar_eq_slash_iff : firstchar element = slash ↔ ∃ rest, element = slash :: rest := by
  constructor
  · intro hfirst
    cases element with
    | nil => exact absurd hfirst (by decide)
    | cons c rest => exact ⟨rest, congrArg (· :: rest) hfirst⟩
  · rintro ⟨rest, rfl⟩
    rfl

theorem lastchar_eq_slash_iff : lastchar element = slash ↔ ∃ front, element = front ++ [slash] := by
  constructor
  · intro hlast
    cases element using List.reverseRecOn with
    | nil => exact absurd hlast (by decide)
    | append_singleton front c =>
      rw [lastchar_append front (List.cons_ne_nil c [])] at hlast
      exact ⟨front, congrArg (front ++ [·]) hlast⟩
  · rintro ⟨front, rfl⟩
    exact lastchar_append front (List.cons_ne_nil slash [])

theorem unled_eq_nil_iff : unled element = [] ↔ Blank element := by
  unfold unled
  constructor
  · intro hnil
    split_ifs at hnil with hfirst
    · obtain ⟨rest, rfl⟩ := firstchar_eq_slash_iff.mp hfirst
      exact .inr (congrArg (slash :: ·) hnil)
    · exact .inl hnil
  · rintro (rfl | rfl) <;> rfl

theorem lastchar_unled (hblank : ¬Blank element) : lastchar (unled element) = lastchar element := by
  unfold unled
  split_ifs with hfirst
  · obtain ⟨rest, rfl⟩ := firstchar_eq_slash_iff.mp hfirst
    have hne : rest ≠ [] := fun hnil ↦ hblank (.inr (congrArg (slash :: ·) hnil))
    exact (lastchar_append [slash] hne).symm
  · rfl

theorem length_unled (element : Path) :
    (unled element).length = element.length - if firstchar element = slash then 1 else 0 := by
  unfold unled
  split_ifs
  · exact List.length_tail
  · rfl

theorem elementLength_of_blank (hblank : Blank element) : elementLength element = 0 := by
  rcases hblank with rfl | rfl <;> rfl

theorem elementLength_of_not_blank (hblank : ¬Blank element) :
    elementLength element = (unled element).length + if lastchar element = slash then 0 else 1 := by
  have hpos : 0 < element.length := List.length_pos_iff.mpr fun hnil ↦ hblank (.inl hnil)
  unfold elementLength
  rw [if_neg fun hnil ↦ hblank (.inl hnil), length_unled]
  split_ifs <;> omega

theorem elementLength_eq_zero_iff : elementLength element = 0 ↔ Blank element := by
  refine ⟨fun hzero ↦ ?_, elementLength_of_blank⟩
  by_contra hblank
  rw [elementLength_of_not_blank hblank] at hzero
  have hlength := Nat.eq_zero_of_add_eq_zero_right hzero
  exact hblank (unled_eq_nil_iff.mp (List.length_eq_zero_iff.mp hlength))

theorem lastchar_withSlash (res : Path) : lastchar (withSlash res) = slash := by
  unfold withSlash
  split_ifs with hslash
  · exact hslash
  · exact lastchar_append res (List.cons_ne_nil slash [])

theorem length_withSlash (res : Path) :
    (withSlash res).length = res.length + if lastchar res = slash then 0 else 1 := by
  unfold withSlash
  split_ifs
  · rfl
  · rw [List.length_append, List.length_singleton]

/-- An element that adds nothing. -/
theorem appendElement_of_blank (htext : lastchar text = slash) (hblank : Blank element) :
    appendElement text element = text := by
  rcases hblank with rfl | rfl
  · rfl
  · rw [appendElement_eq text (List.cons_ne_nil slash [])]
    change withSlash (text ++ []) = text
    rw [List.append_nil, withSlash, if_pos htext]

theorem lastchar_appendElement (htext : lastchar text = slash) (element : Path) :
    lastchar (appendElement text element) = slash := by
  by_cases hblank : Blank element
  · rwa [appendElement_of_blank htext hblank]
  · rw [appendElement_eq text fun hnil ↦ hblank (.inl hnil)]
    exact lastchar_withSlash _

/-- An element takes what is counted for it. -/
theorem length_appendElement (htext : lastchar text = slash) (element : Path) :
    (appendElement text element).length = text.length + elementLength element := by
  by_cases hblank : Blank element
  · rw [appendElement_of_blank htext hblank, elementLength_of_blank hblank, Nat.add_zero]
  · have hne : unled element ≠ [] := fun hnil ↦ hblank (unled_eq_nil_iff.mp hnil)
    rw [appendElement_eq text fun hnil ↦ hblank (.inl hnil), length_withSlash,
      lastchar_append text hne, lastchar_unled hblank, elementLength_of_not_blank hblank,
      List.length_append, Nat.add_assoc]

theorem length_foldl_appendElement (elements : List CString) (htext : lastchar text = slash) :
    (elements.foldl (fun text e ↦ appendElement text e.bytes) text).length =
      text.length + room elements := by
  induction elements generalizing text with
  | nil => rfl
  | cons e elements ih =>
    rw [List.foldl_cons, ih (lastchar_appendElement htext e.bytes), length_appendElement htext,
      room, room, List.map_cons, List.sum_cons, Nat.add_assoc]

/-- What is written has the length that is counted, and one slash in front. -/
theorem length_written (elements : List CString) : (written elements).length = 1 + room elements :=
  length_foldl_appendElement elements rfl

theorem room_eq_zero_iff (elements : List CString) :
    room elements = 0 ↔ ∀ e ∈ elements, Blank e.bytes := by
  unfold room
  rw [List.sum_eq_zero_iff_forall_eq_nat]
  simp only [List.mem_map, forall_exists_index, and_imp, forall_apply_eq_imp_iff₂,
    elementLength_eq_zero_iff]

end Lengths

/-! ### The path -/

section Clean

variable {text element : Path}

/-- What is left of an element: it neither begins nor ends with a slash. -/
structure IsPart (part : Path) : Prop where
  ne_nil : part ≠ []
  firstchar_ne : firstchar part ≠ slash
  lastchar_ne : lastchar part ≠ slash

theorem unled_suffix (element : Path) : unled element <:+ element := by
  unfold unled
  split_ifs
  · exact List.tail_suffix element
  · exact List.suffix_refl element

theorem firstchar_unled (hsingle : SingleSlashes element) : firstchar (unled element) ≠ slash := by
  unfold unled
  split_ifs with hfirst
  · obtain ⟨rest, rfl⟩ := firstchar_eq_slash_iff.mp hfirst
    intro hsecond
    obtain ⟨more, hmore⟩ := firstchar_eq_slash_iff.mp hsecond
    refine hsingle.1 ⟨more, ?_⟩
    exact congrArg (slash :: ·) hmore.symm
  · exact hfirst

/-- An element is appended without its slashes, and with a slash behind it. -/
theorem appendElement_of_not_blank (hsingle : SingleSlashes element) (hblank : ¬Blank element) :
    IsPart (stripped element) ∧
      ∀ text, appendElement text element = text ++ stripped element ++ [slash] := by
  have hne : unled element ≠ [] := fun hnil ↦ hblank (unled_eq_nil_iff.mp hnil)
  have hfirst := firstchar_unled hsingle
  have happend : ∀ text, appendElement text element = withSlash (text ++ unled element) :=
    fun text ↦ appendElement_eq text fun hnil ↦ hblank (.inl hnil)
  unfold stripped
  split_ifs with hlast
  · obtain ⟨front, hfront⟩ := lastchar_eq_slash_iff.mp hlast
    have hfrontne : front ≠ [] := by
      rintro rfl
      exact hfirst (congrArg firstchar hfront)
    rw [hfront, List.dropLast_concat]
    refine ⟨⟨hfrontne, ?_, ?_⟩, fun text ↦ ?_⟩
    · rwa [hfront, firstchar_append hfrontne] at hfirst
    · intro hend
      obtain ⟨more, rfl⟩ := lastchar_eq_slash_iff.mp hend
      have htwo : [slash, slash] <:+ unled element := by
        rw [hfront, List.append_assoc]
        exact List.suffix_append more _
      exact hsingle.2 (htwo.trans (unled_suffix element))
    · rw [happend, withSlash, if_pos (by rwa [lastchar_append text hne]), hfront,
        List.append_assoc]
  · refine ⟨⟨hne, hfirst, hlast⟩, fun text ↦ ?_⟩
    rw [happend, withSlash, if_neg (by rwa [lastchar_append text hne])]

theorem parts_cons (e : CString) (elements : List CString) :
    parts (e :: elements) =
      if Blank e.bytes then parts elements else stripped e.bytes :: parts elements := by
  unfold parts
  rw [List.map_cons, List.filter_cons]
  split_ifs with hkept hblank hblank
  · exact absurd hblank (of_decide_eq_true hkept)
  · rfl
  · rfl
  · exact absurd (decide_eq_true hblank) hkept

theorem parts_eq_nil_iff (elements : List CString) :
    parts elements = [] ↔ ∀ e ∈ elements, Blank e.bytes := by
  induction elements with
  | nil => exact iff_of_true rfl fun e hmem ↦ absurd hmem List.not_mem_nil
  | cons e elements ih =>
    rw [parts_cons, List.forall_mem_cons]
    split_ifs with hblank
    · exact ih.trans (and_iff_right hblank).symm
    · exact iff_of_false not_false fun hall ↦ hblank hall.1

theorem isPart_of_mem_parts {elements : List CString}
    (hsingle : ∀ e ∈ elements, SingleSlashes e.bytes) : ∀ part ∈ parts elements, IsPart part := by
  unfold parts
  simp only [List.mem_map, List.mem_filter, decide_eq_true_eq]
  rintro part ⟨element, ⟨⟨e, hmem, rfl⟩, hblank⟩, rfl⟩
  exact (appendElement_of_not_blank (hsingle e hmem) hblank).1

/-- What is written: every part with a slash behind it. -/
theorem foldl_appendElement (elements : List CString) (htext : lastchar text = slash)
    (hsingle : ∀ e ∈ elements, SingleSlashes e.bytes) :
    elements.foldl (fun text e ↦ appendElement text e.bytes) text =
      text ++ (parts elements).flatMap (· ++ [slash]) := by
  induction elements generalizing text with
  | nil => exact (List.append_nil text).symm
  | cons e elements ih =>
    obtain ⟨hsingle, hrest⟩ := List.forall_mem_cons.mp hsingle
    rw [List.foldl_cons, ih (lastchar_appendElement htext e.bytes) hrest, parts_cons]
    split_ifs with hblank
    · rw [appendElement_of_blank htext hblank]
    · rw [(appendElement_of_not_blank hsingle hblank).2, List.flatMap_cons, List.append_assoc,
        List.append_assoc, List.append_assoc]

/-- The parts with a slash behind each, less the last slash. -/
theorem dropLast_flatMap (sep : UInt8) (pieces : List Path) :
    (pieces.flatMap (· ++ [sep])).dropLast = [sep].intercalate pieces := by
  induction pieces with
  | nil => rfl
  | cons piece pieces ih =>
    rw [List.flatMap_cons]
    cases pieces with
    | nil =>
      rw [List.flatMap_nil, List.append_nil, List.dropLast_concat, List.intercalate_singleton]
    | cons next pieces =>
      have hne : (next :: pieces).flatMap (· ++ [sep]) ≠ [] := by
        rw [List.flatMap_cons, List.append_assoc]
        exact List.append_ne_nil_of_right_ne_nil _ (List.cons_ne_nil sep _)
      rw [List.dropLast_append_of_ne_nil hne, ih, List.intercalate_cons_cons]

/-- The path that is joined is the clean path. -/
theorem joined_eq_cleanPath {elements : List CString}
    (hsingle : ∀ e ∈ elements, SingleSlashes e.bytes) (hparts : parts elements ≠ []) :
    joined (elements.map CString.bytes) = cleanPath elements := by
  have hne : (parts elements).flatMap (· ++ [slash]) ≠ [] := by
    obtain ⟨part, rest, hcons⟩ := List.exists_cons_of_ne_nil hparts
    rw [hcons, List.flatMap_cons, List.append_assoc]
    exact List.append_ne_nil_of_right_ne_nil _ (List.cons_ne_nil slash _)
  rw [joined_eq, written, foldl_appendElement elements rfl hsingle,
    List.dropLast_append_of_ne_nil hne, dropLast_flatMap]
  rfl

theorem intercalate_parts {pieces : List Path} (hpieces : pieces ≠ [])
    (hparts : ∀ part ∈ pieces, IsPart part) : IsPart ([slash].intercalate pieces) := by
  induction pieces with
  | nil => exact absurd rfl hpieces
  | cons piece pieces ih =>
    obtain ⟨hpiece, hrest⟩ := List.forall_mem_cons.mp hparts
    cases pieces with
    | nil => rwa [List.intercalate_singleton]
    | cons next pieces =>
      have htail := ih (List.cons_ne_nil next pieces) hrest
      rw [List.intercalate_cons_cons]
      refine ⟨List.append_ne_nil_of_right_ne_nil _ htail.ne_nil, ?_, ?_⟩
      · rw [List.append_assoc, firstchar_append hpiece.ne_nil]
        exact hpiece.firstchar_ne
      · rw [lastchar_append _ htail.ne_nil]
        exact htail.lastchar_ne

/-- A clean path has one slash at its beginning and none at its end. -/
theorem isPart_tail_cleanPath {elements : List CString}
    (hsingle : ∀ e ∈ elements, SingleSlashes e.bytes) (hparts : parts elements ≠ []) :
    IsPart (cleanPath elements).tail :=
  intercalate_parts hparts (isPart_of_mem_parts hsingle)

end Clean

/-! ### Joining -/

section Joining

variable {heap : Heap} {elements : List CString}

/-- Nothing is joined if the count is zero, or if there is no block. -/
theorem cmnFsPathJoin_eq_null (hnone : room elements % 2 ^ 32 = 0 ∨
    heap.malloc ((room elements + 2) % 2 ^ 32) = none) :
    heap.cmnFsPathJoin elements = .null := by
  unfold Heap.cmnFsPathJoin add32
  dsimp only
  rw [total_eq, Nat.mod_add_mod]
  split_ifs with hzero
  · rfl
  · rw [hnone.resolve_left hzero]

/-- What the writing into a block leads to. -/
theorem cmnFsPathJoin_eq_writePath {block : List UInt8} (hzero : room elements % 2 ^ 32 ≠ 0)
    (hblock : heap.malloc ((room elements + 2) % 2 ^ 32) = some block) :
    heap.cmnFsPathJoin elements =
      match writePath elements block with
      | none => .overrun
      | some res => .path res := by
  unfold Heap.cmnFsPathJoin add32
  dsimp only
  rw [total_eq, Nat.mod_add_mod, if_neg hzero, hblock]

/-- A count that wraps leads to a block that is too small. -/
theorem cmnFsPathJoin_eq_overrun {block : List UInt8} (hwraps : 2 ^ 32 ≤ room elements + 2)
    (hzero : room elements % 2 ^ 32 ≠ 0)
    (hblock : heap.malloc ((room elements + 2) % 2 ^ 32) = some block) :
    heap.cmnFsPathJoin elements = .overrun := by
  have hsmall := heap.size_lt hblock
  have hlong : block.length ≤ (written elements).length := by
    rw [heap.length_malloc hblock, length_written]
    omega
  rw [cmnFsPathJoin_eq_writePath hzero hblock, writePath_eq_none hlong]

/-- A count that does not wrap leads to a block that the path fits exactly. -/
theorem exists_cmnFsPathJoin {block : List UInt8} (hcounts : room elements + 2 < 2 ^ 32)
    (hpos : room elements ≠ 0) (hblock : heap.malloc (room elements + 2) = some block) :
    ∃ res, heap.cmnFsPathJoin elements = .path res ∧
      HoldsText res (joined (elements.map CString.bytes)) := by
  have hzero : room elements % 2 ^ 32 ≠ 0 := by
    rwa [Nat.mod_eq_of_lt (Nat.lt_of_add_right_lt hcounts)]
  have hfits : (written elements).length < block.length := by
    rw [heap.length_malloc hblock, length_written]
    omega
  rw [← Nat.mod_eq_of_lt hcounts] at hblock
  obtain ⟨res, hwrite, hholds⟩ := exists_writePath hfits
  exact ⟨res, by rw [cmnFsPathJoin_eq_writePath hzero hblock, hwrite], hholds⟩

/-- A heap has memory for a path if it has a block for it and two bytes more. -/
def Heap.allocates (heap : Heap) (path : Path) : Bool := (heap.malloc (path.length + 2)).isSome

/-- Where the count does not wrap, the function joins as `cmnFsPathJoin` says. -/
theorem cmnFsPathJoin_refines (hcounts : room elements + 2 < 2 ^ 32) :
    match cmnFsPathJoin heap.allocates (elements.map CString.bytes) with
    | none => heap.cmnFsPathJoin elements = .null
    | some path => ∃ res, heap.cmnFsPathJoin elements = .path res ∧ HoldsText res path := by
  have hlength : (joined (elements.map CString.bytes)).length = room elements := by
    rw [joined_eq, List.length_dropLast, length_written, Nat.add_sub_cancel_left]
  have htotal : (elements.map CString.bytes).foldl (fun total tmp ↦ total + elementLength tmp) 0 =
      room elements := by
    rw [room, List.sum_eq_foldl, List.foldl_map, List.foldl_map]
  unfold cmnFsPathJoin Heap.allocates
  rw [htotal, hlength]
  by_cases hzero : room elements = 0
  · rw [if_pos (.inl hzero)]
    exact cmnFsPathJoin_eq_null (.inl (by rw [hzero]; rfl))
  · cases hblock : heap.malloc (room elements + 2) with
    | none =>
      rw [if_pos (.inr rfl)]
      exact cmnFsPathJoin_eq_null (.inr (by rwa [Nat.mod_eq_of_lt hcounts]))
    | some block =>
      rw [if_neg (not_or.mpr ⟨hzero, Bool.noConfusion⟩)]
      exact exists_cmnFsPathJoin hcounts hzero hblock

/-- There is no path where none is owed. -/
theorem joinRight_of_null (hnull : heap.cmnFsPathJoin elements = .null)
    (howed : (∀ e ∈ elements, Blank e.bytes) ∨ heap.malloc (room elements + 2) = none) :
    JoinRight heap elements where
  fits := fun hover ↦ Joined.noConfusion (hnull.symm.trans hover)
  null_iff := fun _ ↦ iff_of_true hnull howed
  joins := fun _ _ hpath ↦ Joined.noConfusion (hnull.symm.trans hpath)

/-- There is a path where one is owed. -/
theorem joinRight_of_path {res block : List UInt8} (hpath : heap.cmnFsPathJoin elements = .path res)
    (hholds : HoldsText res (joined (elements.map CString.bytes))) (hpos : room elements ≠ 0)
    (hblock : heap.malloc (room elements + 2) = some block) : JoinRight heap elements where
  fits := fun hover ↦ Joined.noConfusion (hpath.symm.trans hover)
  null_iff := by
    refine fun _ ↦ iff_of_false (fun hnull ↦ Joined.noConfusion (hpath.symm.trans hnull)) ?_
    rintro (hblank | hnone)
    · exact hpos ((room_eq_zero_iff elements).mpr hblank)
    · exact Option.some_ne_none block (hblock.symm.trans hnone)
  joins := by
    intro hsingle other hother
    obtain rfl : res = other := Joined.path.inj (hpath.symm.trans hother)
    have hparts : parts elements ≠ [] := fun hnil ↦
      hpos ((room_eq_zero_iff elements).mpr ((parts_eq_nil_iff elements).mp hnil))
    have hclean := isPart_tail_cleanPath hsingle hparts
    rw [joined_eq_cleanPath hsingle hparts] at hholds
    refine ⟨hholds, hclean.firstchar_ne, ?_⟩
    have hlast := lastchar_append [slash] hclean.ne_nil
    exact fun hslash ↦ hclean.lastchar_ne (hlast.symm.trans hslash)

/-- A join is right exactly if the buffer is large enough or none is got. -/
theorem joinRight_iff (heap : Heap) (elements : List CString) :
    JoinRight heap elements ↔ RoomCounts heap elements := by
  constructor
  · intro hright
    by_contra hcounts
    obtain ⟨hwraps, hzero, hblock⟩ : ¬_ ∧ ¬_ ∧ ¬_ := by
      rwa [RoomCounts, not_or, not_or] at hcounts
    obtain ⟨block, hblock⟩ := Option.ne_none_iff_exists'.mp hblock
    exact hright.fits (cmnFsPathJoin_eq_overrun (Nat.not_lt.mp hwraps) hzero hblock)
  · intro hcounts
    rcases Nat.lt_or_ge (room elements + 2) (2 ^ 32) with hsmall | hwraps
    · by_cases hzero : room elements = 0
      · exact joinRight_of_null (cmnFsPathJoin_eq_null (.inl (by rw [hzero]; rfl)))
          (.inl ((room_eq_zero_iff elements).mp hzero))
      · cases hblock : heap.malloc (room elements + 2) with
        | none =>
          have hnone : heap.malloc ((room elements + 2) % 2 ^ 32) = none := by
            rwa [Nat.mod_eq_of_lt hsmall]
          exact joinRight_of_null (cmnFsPathJoin_eq_null (.inr hnone)) (.inr hblock)
        | some block =>
          obtain ⟨res, hpath, hholds⟩ := exists_cmnFsPathJoin hsmall hzero hblock
          exact joinRight_of_path hpath hholds hzero hblock
    · -- a count that wraps, so that no heap has memory for the path
      have hnone : heap.malloc (room elements + 2) = none := by
        by_contra hsome
        obtain ⟨block, hblock⟩ := Option.ne_none_iff_exists'.mp hsome
        exact absurd (heap.size_lt hblock) (Nat.not_lt.mpr hwraps)
      exact joinRight_of_null (cmnFsPathJoin_eq_null (hcounts.resolve_left (Nat.not_lt.mpr hwraps)))
        (.inr hnone)

/-- A heap that has every block. -/
def fullHeap : Heap where
  malloc := fun size ↦ if size < 2 ^ 32 then some (List.replicate size 0) else none
  length_malloc := by
    intro size block hblock
    split_ifs at hblock
    obtain rfl := Option.some.inj hblock
    exact List.length_replicate
  size_lt := by
    intro size block hblock
    split_ifs at hblock with hsize
    exact hsize

theorem zero_notMem_manyA (count : ℕ) : (0 : UInt8) ∉ List.replicate count 0x61 :=
  fun hmem ↦ absurd (List.eq_of_mem_replicate hmem) (by decide)

/-- A string of copies of the letter `a`. -/
def manyA (count : ℕ) : CString := ⟨List.replicate count 0x61, zero_notMem_manyA count⟩

theorem elementLength_manyA {count : ℕ} (hpos : 0 < count) :
    elementLength (manyA count).bytes = count + 1 := by
  obtain ⟨more, rfl⟩ := Nat.exists_eq_add_one_of_ne_zero hpos.ne'
  have hbytes : (manyA (more + 1)).bytes = List.replicate more 0x61 ++ [0x61] :=
    List.replicate_succ'
  have hlast : lastchar (manyA (more + 1)).bytes = 0x61 := by
    rw [hbytes]
    exact lastchar_append _ (List.cons_ne_nil _ _)
  have hfirst : firstchar (manyA (more + 1)).bytes = 0x61 := rfl
  have hlength : (manyA (more + 1)).bytes.length = more + 1 := List.length_replicate
  unfold elementLength
  rw [if_neg (List.ne_nil_of_length_eq_add_one hlength), hlast, hfirst, hlength, if_neg (by decide),
    if_neg (by decide)]
  rfl

theorem room_manyA {count : ℕ} (hpos : 0 < count) :
    room [manyA count, manyA count, manyA 1] = 2 * count + 4 := by
  simp only [room, List.map_cons, List.map_nil, List.sum_cons, List.sum_nil]
  rw [elementLength_manyA hpos, elementLength_manyA Nat.one_pos]
  omega

theorem not_joinRight_of_wraps {count : ℕ} {block : List UInt8} (hroom : room elements = count)
    (hwraps : 2 ^ 32 ≤ count + 2) (hzero : count % 2 ^ 32 ≠ 0)
    (hblock : heap.malloc ((count + 2) % 2 ^ 32) = some block) : ¬JoinRight heap elements := by
  subst hroom
  exact fun hright ↦ hright.fits (cmnFsPathJoin_eq_overrun hwraps hzero hblock)

/-- Twice a string of two gigabytes, and a short one: a block of four bytes is overrun. -/
theorem not_joinRight_wrapped :
    ¬JoinRight fullHeap [manyA (2 ^ 31 - 1), manyA (2 ^ 31 - 1), manyA 1] := by
  have hblock : fullHeap.malloc 4 = some (List.replicate 4 0) := rfl
  have hroom := room_manyA (show 0 < 2 ^ 31 - 1 by norm_num)
  exact not_joinRight_of_wraps hroom (by norm_num) (by norm_num) hblock

end Joining

end Elua.CommonFs
