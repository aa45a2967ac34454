import Elua.Foundation.CString
import Elua.Foundation.Overwrite
import Mathlib.Data.List.DropRight

/-!
# Texts that are written into a buffer

A buffer is the list of its bytes, and the text in it ends at its first zero. `strcpy`, `strcat` and
`cutLast` write texts; there is no buffer left once a byte falls outside.

`WritesText size text result` says of a result that the buffer, of `size` bytes, holds the text if
the text and its zero fit, and that there is none if they do not. Writing one text after the other
keeps to this rule (`WritesText.bind`, `writesText_foldlM`), so whether a whole run stays inside the
buffer is told by the length of the last text.
-/

set_option autoImplicit false
set_option relaxedAutoImplicit false

namespace Elua.Foundation

/-! ### Operations -/

/-- Writes bytes into a buffer. -/
def writeAt (buffer : List UInt8) (offset : ℕ) (bytes : List UInt8) : Option (List UInt8) :=
  if offset + bytes.length ≤ buffer.length then some (overwrite buffer offset bytes) else none

/-- The text in a buffer. -/
def textOf (buffer : List UInt8) : List UInt8 := (CString.ofBuffer buffer).bytes

/-- Writes a text with its zero to the start of a buffer. -/
def strcpy (buffer text : List UInt8) : Option (List UInt8) := writeAt buffer 0 (text ++ [0])

/-- Writes a text with its zero behind the text in a buffer. -/
def strcat (buffer text : List UInt8) : Option (List UInt8) :=
  writeAt buffer (textOf buffer).length (text ++ [0])

/-- `buffer[ strlen( buffer ) - 1 ] = '\0'`, where there is a text. -/
def cutLast (buffer : List UInt8) : Option (List UInt8) :=
  writeAt buffer ((textOf buffer).length - 1) [0]

/-! ### What a buffer holds -/

/-- The text stands at the start of the buffer, with its zero. -/
structure HoldsText (buffer text : List UInt8) : Prop where
  zero_notMem : (0 : UInt8) ∉ text
  starts : text ++ [0] <+: buffer

/-- A buffer of a size is written, and holds the text if it fits. -/
structure WritesText (size : ℕ) (text : List UInt8) (result : Option (List UInt8)) : Prop where
  holds : text.length < size → ∃ buffer, result = some buffer ∧ buffer.length = size ∧
    HoldsText buffer text
  overruns : size ≤ text.length → result = none

section Texts

variable {buffer text : List UInt8} {size : ℕ}

theorem HoldsText.textOf_eq (hholds : HoldsText buffer text) : textOf buffer = text := by
  obtain ⟨hzero, rest, rfl⟩ := hholds
  rw [List.append_assoc]
  exact CString.bytes_ofBuffer_append hzero rest

theorem HoldsText.length_lt (hholds : HoldsText buffer text) : text.length < buffer.length := by
  have hle := hholds.starts.length_le
  rw [List.length_append] at hle
  exact hle

/-- A text is written behind bytes that stay. -/
theorem writesText_writeAt {before : List UInt8} (hbefore : before <+: buffer)
    (hzero : (0 : UInt8) ∉ before ++ text) :
    WritesText buffer.length (before ++ text) (writeAt buffer before.length (text ++ [0])) := by
  unfold writeAt
  constructor
  · intro hfits
    rw [List.length_append] at hfits
    have hroom : before.length + (text ++ [0]).length ≤ buffer.length := by
      rw [List.length_append, List.length_singleton]
      omega
    refine ⟨_, if_pos hroom, length_overwrite .., hzero, ?_⟩
    obtain ⟨rest, rfl⟩ := hbefore
    have hold : (rest.take (text ++ [0]).length).length = (text ++ [0]).length := by
      have hlength : (before ++ rest).length = before.length + rest.length := List.length_append
      rw [hlength] at hroom
      exact List.length_take_of_le (Nat.le_of_add_le_add_left hroom)
    rw [← List.take_append_drop (text ++ [0]).length rest, overwrite_middle rfl hold,
      ← List.append_assoc, ← List.append_assoc]
    exact List.prefix_append ..
  · intro hlong
    refine if_neg fun hroom ↦ ?_
    simp only [List.length_append, List.length_singleton] at hlong hroom
    omega

theorem writesText_strcpy (hzero : (0 : UInt8) ∉ text) :
    WritesText buffer.length text (strcpy buffer text) :=
  writesText_writeAt (List.nil_prefix) hzero

theorem HoldsText.writesText_strcat (hholds : HoldsText buffer text) {more : List UInt8}
    (hzero : (0 : UInt8) ∉ more) :
    WritesText buffer.length (text ++ more) (strcat buffer more) := by
  unfold strcat
  rw [hholds.textOf_eq]
  refine writesText_writeAt ((List.prefix_append ..).trans hholds.starts) ?_
  rw [List.mem_append]
  exact not_or.mpr ⟨hholds.zero_notMem, hzero⟩

theorem HoldsText.writesText_cutLast (hholds : HoldsText buffer text) :
    WritesText buffer.length text.dropLast (cutLast buffer) := by
  have hprefix : text.dropLast <+: buffer :=
    (List.dropLast_prefix text).trans ((List.prefix_append ..).trans hholds.starts)
  have hzero : (0 : UInt8) ∉ text.dropLast ++ [] := by
    rw [List.append_nil]
    exact fun hmem ↦ hholds.zero_notMem (List.dropLast_subset text hmem)
  unfold cutLast
  rw [hholds.textOf_eq, ← List.length_dropLast]
  have hwrites := writesText_writeAt hprefix hzero
  rwa [List.append_nil, List.nil_append] at hwrites

end Texts

/-! ### Runs -/

section Runs

variable {size : ℕ} {text longer : List UInt8}

theorem HoldsText.writesText_some {buffer : List UInt8} (hholds : HoldsText buffer text) :
    WritesText buffer.length text (some buffer) :=
  ⟨fun _ ↦ ⟨buffer, rfl, rfl, hholds⟩,
    fun hlong ↦ absurd hholds.length_lt (Nat.not_lt.mpr hlong)⟩

/-- Writing goes on with a longer text. -/
theorem WritesText.bind {result : Option (List UInt8)} {next : List UInt8 → Option (List UInt8)}
    (hwrites : WritesText size text result) (hlonger : text.length ≤ longer.length)
    (hnext : ∀ buffer, buffer.length = size → HoldsText buffer text →
      WritesText size longer (next buffer)) :
    WritesText size longer (result.bind next) := by
  rcases Nat.lt_or_ge text.length size with hfits | hlong
  · obtain ⟨buffer, rfl, hlength, hholds⟩ := hwrites.holds hfits
    exact hnext buffer hlength hholds
  · rw [hwrites.overruns hlong]
    exact ⟨fun hfits ↦ absurd (hlong.trans hlonger) (Nat.not_le.mpr hfits), fun _ ↦ rfl⟩

variable {Item : Type*} {append : List UInt8 → Item → List UInt8}

theorem length_le_foldl (hlonger : ∀ text item, text.length ≤ (append text item).length)
    (items : List Item) (text : List UInt8) : text.length ≤ (items.foldl append text).length := by
  induction items generalizing text with
  | nil => exact le_rfl
  | cons item items ih => exact (hlonger text item).trans (ih _)

/-- A loop that appends writes the text that it leads to. -/
theorem writesText_foldlM {write : List UInt8 → Item → Option (List UInt8)}
    (hlonger : ∀ text item, text.length ≤ (append text item).length)
    (hwrite : ∀ {buffer text}, HoldsText buffer text → ∀ item,
      WritesText buffer.length (append text item) (write buffer item))
    (items : List Item) {buffer : List UInt8} (hholds : HoldsText buffer text) :
    WritesText buffer.length (items.foldl append text) (items.foldlM write buffer) := by
  induction items generalizing buffer text with
  | nil => exact hholds.writesText_some
  | cons item items ih =>
    rw [List.foldl_cons, List.foldlM_cons]
    refine (hwrite hholds item).bind (length_le_foldl hlonger items _) fun next hlength hnext ↦ ?_
    rw [← hlength]
    exact ih hnext

end Runs

end Elua.Foundation
