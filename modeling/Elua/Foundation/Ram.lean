import Elua.Foundation.Overwrite
import Mathlib.Data.Nat.Bitwise
import Mathlib.Logic.Function.Basic
import Mathlib.Tactic.Common

/-!
# A memory of 32 bit addresses and cursors that write it

Addresses are words, so that a cursor wraps around at the end of the memory. `Cursor.put` writes the
byte at the cursor and moves it on, and `Cursor.putAll` writes a run of bytes. `BytesAt` says that a
run of bytes stands at an address. A run that is written stands where the cursor was
(`bytesAt_putAll`), and nothing else changes (`putAll_outside`). `Ram.replaced` is a memory with the
bytes from an address on replaced by a run.
-/

set_option autoImplicit false
set_option relaxedAutoImplicit false

namespace Elua.Foundation

/-- An address. -/
abbrev Addr := BitVec 32

/-- The contents of a memory. -/
abbrev Ram := Addr → UInt8

/-- The address a number of bytes behind another. -/
def Addr.plus (addr : Addr) (count : ℕ) : Addr := addr + BitVec.ofNat 32 count

/-- A run of bytes stands at an address. -/
def BytesAt (ram : Ram) : Addr → List UInt8 → Prop
  | _, [] => True
  | addr, byte :: bytes => ram addr = byte ∧ BytesAt ram (addr + 1) bytes

/-- The run of bytes at an address. -/
def loadBytes (ram : Ram) : Addr → ℕ → List UInt8
  | _, 0 => []
  | addr, count + 1 => ram addr :: loadBytes ram (addr + 1) count

/-- A memory with the address at which the next byte is written. -/
structure Cursor where
  ram : Ram
  addr : Addr

/-- `*p ++ = byte`. -/
def Cursor.put (cursor : Cursor) (byte : UInt8) : Cursor :=
  ⟨Function.update cursor.ram cursor.addr byte, cursor.addr + 1⟩

/-- Writes a run of bytes. -/
def Cursor.putAll (cursor : Cursor) (bytes : List UInt8) : Cursor := bytes.foldl Cursor.put cursor

/-! ### Addresses -/

section Addresses

variable {addr : Addr} {count : ℕ}

@[simp] theorem Addr.plus_zero (addr : Addr) : addr.plus 0 = addr := by
  rw [Addr.plus, BitVec.add_zero]

theorem Addr.plus_succ (addr : Addr) (count : ℕ) :
    addr.plus (count + 1) = Addr.plus (addr + 1) count := by
  unfold Addr.plus
  bv_omega

theorem Addr.plus_plus (addr : Addr) (first second : ℕ) :
    (addr.plus first).plus second = addr.plus (first + second) := by
  unfold Addr.plus
  bv_omega

/-- How far an address is behind another. -/
theorem Addr.sub_plus (addr : Addr) (hcount : count < 2 ^ 32) :
    (addr.plus count - addr).toNat = count := by
  unfold Addr.plus
  bv_omega

end Addresses

/-! ### Runs of bytes -/

section Runs

variable {ram other : Ram} {addr : Addr} {bytes : List UInt8}

theorem bytesAt_append {first second : List UInt8} :
    BytesAt ram addr (first ++ second) ↔
      BytesAt ram addr first ∧ BytesAt ram (addr.plus first.length) second := by
  induction first generalizing addr with
  | nil => simp [BytesAt]
  | cons byte first ih =>
    rw [List.cons_append, BytesAt, BytesAt, ih, List.length_cons, Addr.plus_succ, and_assoc]

/-- A run depends on its own bytes only. -/
theorem BytesAt.congr (hbytes : BytesAt ram addr bytes)
    (hsame : ∀ index < bytes.length, other (addr.plus index) = ram (addr.plus index)) :
    BytesAt other addr bytes := by
  induction bytes generalizing addr with
  | nil => trivial
  | cons byte bytes ih =>
    obtain ⟨hfirst, hrest⟩ := hbytes
    refine ⟨?_, ih hrest fun index hindex ↦ ?_⟩
    · have hzero := hsame 0 (Nat.zero_lt_succ _)
      rw [Addr.plus_zero] at hzero
      rw [hzero, hfirst]
    · rw [← Addr.plus_succ]
      exact hsame (index + 1) (Nat.succ_lt_succ hindex)

theorem BytesAt.loadBytes_eq (hbytes : BytesAt ram addr bytes) :
    loadBytes ram addr bytes.length = bytes := by
  induction bytes generalizing addr with
  | nil => rfl
  | cons byte bytes ih =>
    rw [List.length_cons, loadBytes, hbytes.1, ih hbytes.2]

theorem bytesAt_loadBytes (ram : Ram) (addr : Addr) (count : ℕ) :
    BytesAt ram addr (loadBytes ram addr count) := by
  induction count generalizing addr with
  | zero => trivial
  | succ count ih => exact ⟨rfl, ih _⟩

@[simp] theorem length_loadBytes (ram : Ram) (addr : Addr) (count : ℕ) :
    (loadBytes ram addr count).length = count := by
  induction count generalizing addr with
  | zero => rfl
  | succ count ih => rw [loadBytes, List.length_cons, ih]

theorem getElem?_loadBytes (ram : Ram) (addr : Addr) (count index : ℕ) :
    (loadBytes ram addr count)[index]? = if index < count then some (ram (addr.plus index)) else none := by
  induction count generalizing addr index with
  | zero => rfl
  | succ count ih =>
    cases index with
    | zero => rw [loadBytes, List.getElem?_cons_zero, if_pos (Nat.zero_lt_succ _), Addr.plus_zero]
    | succ index =>
      rw [loadBytes, List.getElem?_cons_succ, ih, Addr.plus_succ]
      exact if_congr Nat.succ_lt_succ_iff.symm rfl rfl

end Runs

/-! ### Replacing a run -/

section Replacing

variable {start : ℕ}

/-- A memory with the bytes from an address on replaced by a run. -/
def Ram.replaced (ram : Ram) (start : ℕ) (bytes : List UInt8) : Ram := fun addr ↦
  if start ≤ addr.toNat then (bytes[addr.toNat - start]?).getD (ram addr) else ram addr

@[simp] theorem replaced_nil (ram : Ram) (start : ℕ) : ram.replaced start [] = ram := by
  funext addr
  exact ite_self _

/-- Two runs one behind the other are one run. -/
theorem replaced_replaced (ram : Ram) (start : ℕ) (first second : List UInt8) :
    (ram.replaced start first).replaced (start + first.length) second =
      ram.replaced start (first ++ second) := by
  funext addr
  unfold Ram.replaced
  by_cases hsecond : start + first.length ≤ addr.toNat
  · have hindex : first.length ≤ addr.toNat - start := by omega
    have hfirst : first[addr.toNat - start]? = none := List.getElem?_eq_none hindex
    rw [if_pos hsecond, if_pos (by omega), List.getElem?_append_right hindex, Nat.sub_sub, hfirst,
      Option.getD_none, if_pos (by omega)]
  · by_cases hstart : start ≤ addr.toNat
    · rw [if_neg hsecond, if_pos hstart, List.getElem?_append_left (by omega), if_pos hstart]
    · rw [if_neg hsecond, if_neg hstart, if_neg hstart]

/-- A part of the memory that is read, changed in its middle and put back. -/
theorem replaced_overwrite {ram : Ram} {addr : Addr} {offset count : ℕ} {bytes : List UInt8}
    (hinside : offset + bytes.length ≤ count) (hbelow : addr.toNat + count ≤ 2 ^ 32) :
    ram.replaced addr.toNat (overwrite (loadBytes ram addr count) offset bytes) =
      ram.replaced (addr.toNat + offset) bytes := by
  funext other
  unfold Ram.replaced
  by_cases hstart : addr.toNat ≤ other.toNat
  · rw [if_pos hstart, getElem?_overwrite, length_loadBytes]
    by_cases hmiddle : offset ≤ other.toNat - addr.toNat ∧
        other.toNat - addr.toNat < offset + bytes.length ∧ other.toNat - addr.toNat < count
    · rw [if_pos hmiddle, if_pos (by omega), Nat.sub_sub]
    · have hkept : (if addr.toNat + offset ≤ other.toNat then
          (bytes[other.toNat - (addr.toNat + offset)]?).getD (ram other) else ram other) =
          ram other := by
        split_ifs with hoffset
        · rw [List.getElem?_eq_none (by omega), Option.getD_none]
        · rfl
      rw [if_neg hmiddle, hkept, getElem?_loadBytes]
      split_ifs with hcount
      · have hself : addr.plus (other.toNat - addr.toNat) = other := by
          unfold Addr.plus
          bv_omega
        rw [hself, Option.getD_some]
      · rfl
  · rw [if_neg hstart, if_neg (by omega)]

end Replacing

/-! ### Writing -/

section Writing

variable {cursor : Cursor} {bytes : List UInt8}

theorem putAll_cons (cursor : Cursor) (byte : UInt8) (bytes : List UInt8) :
    cursor.putAll (byte :: bytes) = (cursor.put byte).putAll bytes := rfl

theorem putAll_append (cursor : Cursor) (first second : List UInt8) :
    cursor.putAll (first ++ second) = (cursor.putAll first).putAll second :=
  List.foldl_append

@[simp] theorem addr_putAll (cursor : Cursor) (bytes : List UInt8) :
    (cursor.putAll bytes).addr = cursor.addr.plus bytes.length := by
  induction bytes generalizing cursor with
  | nil => exact (Addr.plus_zero _).symm
  | cons byte bytes ih =>
    rw [putAll_cons, ih, List.length_cons, Addr.plus_succ]
    rfl

/-- Only the bytes from the cursor on change. -/
theorem putAll_outside {addr : Addr} (houtside : bytes.length ≤ (addr - cursor.addr).toNat) :
    (cursor.putAll bytes).ram addr = cursor.ram addr := by
  induction bytes generalizing cursor with
  | nil => rfl
  | cons byte bytes ih =>
    rw [List.length_cons] at houtside
    have hne : addr ≠ cursor.addr := by
      rintro rfl
      bv_omega
    have hrest : bytes.length ≤ (addr - (cursor.put byte).addr).toNat := by
      change bytes.length ≤ (addr - (cursor.addr + 1)).toNat
      bv_omega
    rw [putAll_cons, ih hrest]
    exact Function.update_of_ne hne byte cursor.ram

/-- A run that is written stands where the cursor was. -/
theorem bytesAt_putAll (hlength : bytes.length ≤ 2 ^ 32) :
    BytesAt (cursor.putAll bytes).ram cursor.addr bytes := by
  induction bytes generalizing cursor with
  | nil => trivial
  | cons byte bytes ih =>
    rw [List.length_cons] at hlength
    have hfirst : bytes.length ≤ (cursor.addr - (cursor.put byte).addr).toNat := by
      change bytes.length ≤ (cursor.addr - (cursor.addr + 1)).toNat
      bv_omega
    constructor
    · rw [putAll_cons, putAll_outside hfirst]
      exact Function.update_self cursor.addr byte cursor.ram
    · exact ih (Nat.le_of_succ_le hlength)

/-- Writing what is there already changes nothing. -/
theorem putAll_self (hbytes : BytesAt cursor.ram cursor.addr bytes) :
    (cursor.putAll bytes).ram = cursor.ram := by
  induction bytes generalizing cursor with
  | nil => rfl
  | cons byte bytes ih =>
    obtain ⟨hfirst, hrest⟩ := hbytes
    have hput : (cursor.put byte).ram = cursor.ram := by
      rw [← hfirst]
      exact Function.update_eq_self cursor.addr cursor.ram
    have hnext : BytesAt (cursor.put byte).ram (cursor.put byte).addr bytes := by
      rw [hput]
      exact hrest
    rw [putAll_cons, ih hnext, hput]

end Writing

end Elua.Foundation
