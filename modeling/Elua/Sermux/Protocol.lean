import Mathlib.Tactic.Common

/-!
# The serial multiplexer protocol

The constants of `sermux.h` and the test both ends use to decide which data bytes are escaped. A
data byte that equals the escape character, the force-service-id character or one of the service
ids `0xD0 .. 0xD7` is sent as the escape character followed by the byte with its fifth bit flipped.
`escaped_byte_ge` and `escaped_byte_ne_force` locate the flipped bytes above the service ids and
apart from the control characters, and `xor_mask_cancel` is how the receiver recovers them.
-/

set_option autoImplicit false
set_option relaxedAutoImplicit false

namespace Elua.Sermux

/-- `SERMUX_SERVICE_ID_FIRST`. -/
def sermuxServiceIdFirst : ℕ := 0xD0

/-- `SERMUX_SERVICE_ID_LAST`. -/
def sermuxServiceIdLast : ℕ := 0xD7

/-- `SERMUX_SERVICE_MAX`. -/
def sermuxServiceMax : ℕ := sermuxServiceIdLast - sermuxServiceIdFirst + 1

/-- `SERMUX_ESCAPE_CHAR`. -/
def sermuxEscapeChar : UInt8 := 0xC0

/-- `SERMUX_FORCE_SID_CHAR`. -/
def sermuxForceSidChar : UInt8 := 0xFF

/-- `SERMUX_ESCAPE_XOR_MASK`. -/
def sermuxEscapeXorMask : UInt8 := 0x20

/-- `SERMUX_ESC_MASK`: marks a remembered byte as sent with an escape character. -/
def sermuxEscMask : ℕ := 0x100

/-- The test by which both ends decide whether a data byte is escaped. -/
def needsEscape (data : UInt8) : Bool :=
  data == sermuxEscapeChar || data == sermuxForceSidChar ||
    (sermuxServiceIdFirst ≤ data.toNat && data.toNat ≤ sermuxServiceIdLast)

/-- The byte that follows the escape character. -/
def escapedByte (data : UInt8) : UInt8 := data ^^^ sermuxEscapeXorMask

/-- The bytes that stand for one data byte on the wire. -/
def encodedData (data : UInt8) : List UInt8 :=
  if needsEscape data then [sermuxEscapeChar, escapedByte data] else [data]

/-- Every property of the bytes that can be evaluated is settled by evaluating it on all of them. -/
theorem forall_byte_of_bitVec (property : UInt8 → Prop)
    (hall : ∀ value : BitVec 8, property ⟨value⟩) (data : UInt8) : property data :=
  hall data.toBitVec

/-- Flipping the fifth bit twice gives the byte back. -/
@[simp] theorem xor_mask_cancel (data : UInt8) :
    escapedByte data ^^^ sermuxEscapeXorMask = data := by
  rw [escapedByte, UInt8.xor_assoc, UInt8.xor_self, UInt8.xor_zero]

/-- An escaped byte is above all service ids. -/
theorem escaped_byte_ge {data : UInt8} (hescape : needsEscape data = true) :
    0xDF ≤ (escapedByte data).toNat :=
  forall_byte_of_bitVec (fun data ↦ needsEscape data = true →
    0xDF ≤ (escapedByte data).toNat) (by decide) data hescape

/-- An escaped byte is not the force-service-id character. -/
theorem escaped_byte_ne_force {data : UInt8} (hescape : needsEscape data = true) :
    escapedByte data ≠ sermuxForceSidChar :=
  forall_byte_of_bitVec (fun data ↦ needsEscape data = true →
    escapedByte data ≠ sermuxForceSidChar) (by decide) data hescape

/-- An escaped byte is not the escape character. -/
theorem escaped_byte_ne_escape {data : UInt8} (hescape : needsEscape data = true) :
    escapedByte data ≠ sermuxEscapeChar :=
  forall_byte_of_bitVec (fun data ↦ needsEscape data = true →
    escapedByte data ≠ sermuxEscapeChar) (by decide) data hescape

/-- A byte sent as it is differs from the escape character. -/
theorem ne_escape_of_plain {data : UInt8} (hplain : needsEscape data = false) :
    data ≠ sermuxEscapeChar := by
  rintro rfl
  exact absurd hplain (by decide)

/-- A byte sent as it is differs from the force-service-id character. -/
theorem ne_force_of_plain {data : UInt8} (hplain : needsEscape data = false) :
    data ≠ sermuxForceSidChar := by
  rintro rfl
  exact absurd hplain (by decide)

/-- A byte sent as it is is none of the service ids. -/
theorem not_service_of_plain {data : UInt8} (hplain : needsEscape data = false) :
    ¬ (sermuxServiceIdFirst ≤ data.toNat ∧ data.toNat ≤ sermuxServiceIdLast) := by
  simp only [needsEscape, Bool.or_eq_false_iff, Bool.and_eq_false_iff, decide_eq_false_iff_not]
    at hplain
  tauto

/-- The byte that announces a service id carries that id. -/
theorem toNat_service {id : ℕ} (hid : id < 256) : (UInt8.ofNat id).toNat = id := by
  simp only [UInt8.toNat_ofNat']
  omega

end Elua.Sermux
