import Elua.Foundation.Word32

/-!
# A memory of bytes

A memory gives a byte for every address. Words are stored little endian. `AgreeOn first second start
finish` says that two memories hold the same bytes from `start` up to `finish`; every operation
comes with the interval outside of which it changes nothing. -/

set_option autoImplicit false
set_option relaxedAutoImplicit false

namespace Elua.Foundation

/-- The contents of an address space. -/
abbrev Memory := ℕ → UInt8

/-- The two memories hold the same bytes in an interval of addresses. -/
def AgreeOn (first second : Memory) (start finish : ℕ) : Prop :=
  ∀ addr, start ≤ addr → addr < finish → second addr = first addr

/-- Replaces the byte at an address. -/
def storeByte (mem : Memory) (addr : ℕ) (byte : UInt8) : Memory :=
  fun other ↦ if other = addr then byte else mem other

/-- Reads a word. -/
def load32 (mem : Memory) (addr : ℕ) : ℕ :=
  leValue32 (mem addr) (mem (addr + 1)) (mem (addr + 2)) (mem (addr + 3))

/-- Writes a word. -/
def store32 (mem : Memory) (addr value : ℕ) : Memory :=
  fun other ↦
    if addr ≤ other then ((leBytes32 value)[other - addr]?).getD (mem other) else mem other

/-- Fills a run of bytes. -/
def memset (mem : Memory) (addr : ℕ) (byte : UInt8) (count : ℕ) : Memory :=
  fun other ↦ if addr ≤ other ∧ other < addr + count then byte else mem other

/-- Copies a run of bytes, which may overlap its copy. -/
def memmove (mem : Memory) (dest src count : ℕ) : Memory :=
  fun other ↦ if dest ≤ other ∧ other < dest + count then mem (src + (other - dest)) else mem other

namespace AgreeOn

variable {first second third : Memory} {start finish : ℕ}

theorem refl (mem : Memory) (start finish : ℕ) : AgreeOn mem mem start finish := fun _ _ _ ↦ rfl

theorem trans (hfirst : AgreeOn first second start finish)
    (hsecond : AgreeOn second third start finish) : AgreeOn first third start finish :=
  fun addr hstart hfinish ↦ (hsecond addr hstart hfinish).trans (hfirst addr hstart hfinish)

/-- Memories that agree in an interval agree in its parts. -/
theorem mono {from' to' : ℕ} (hagree : AgreeOn first second start finish) (hstart : start ≤ from')
    (hfinish : to' ≤ finish) : AgreeOn first second from' to' :=
  fun addr hfrom hto ↦ hagree addr (hstart.trans hfrom) (lt_of_lt_of_le hto hfinish)

end AgreeOn

section Words

variable {mem : Memory} {addr value : ℕ}

/-- A word is a number of 32 bits. -/
theorem load32_lt (mem : Memory) (addr : ℕ) : load32 mem addr < 2 ^ 32 := leValue32_lt ..

/-- A word depends on its four bytes. -/
theorem load32_congr {other : Memory} (hagree : AgreeOn mem other addr (addr + 4)) :
    load32 other addr = load32 mem addr := by
  rw [load32, load32, hagree addr (by omega) (by omega), hagree (addr + 1) (by omega) (by omega),
    hagree (addr + 2) (by omega) (by omega), hagree (addr + 3) (by omega) (by omega)]

/-- A word that was stored is read. -/
theorem load32_store32 (hvalue : value < 2 ^ 32) : load32 (store32 mem addr value) addr = value := by
  have hbyte : ∀ index byte, (leBytes32 value)[index]? = some byte →
      store32 mem addr value (addr + index) = byte := by
    intro index byte hsome
    rw [store32, if_pos (Nat.le_add_right ..), Nat.add_sub_cancel_left, hsome, Option.getD_some]
  have hfirst := hbyte 0 _ rfl
  rw [Nat.add_zero] at hfirst
  rw [load32, hfirst, hbyte 1 _ rfl, hbyte 2 _ rfl, hbyte 3 _ rfl]
  exact leValue32_leBytes32 hvalue

/-- Storing a word changes its four bytes. -/
theorem store32_of_outside {other : ℕ} (houtside : other < addr ∨ addr + 4 ≤ other) :
    store32 mem addr value other = mem other := by
  unfold store32
  split_ifs with hle
  · rw [List.getElem?_eq_none (by rw [length_leBytes32]; omega), Option.getD_none]
  · rfl

/-- A store leaves an interval alone that it does not meet. -/
theorem agreeOn_store32 {start finish : ℕ} (houtside : finish ≤ addr ∨ addr + 4 ≤ start) :
    AgreeOn mem (store32 mem addr value) start finish :=
  fun other hstart hfinish ↦ store32_of_outside (by omega)

/-- A word apart from a stored one is unchanged. -/
theorem load32_store32_of_apart {other : ℕ} (hapart : other + 4 ≤ addr ∨ addr + 4 ≤ other) :
    load32 (store32 mem addr value) other = load32 mem other :=
  load32_congr (agreeOn_store32 hapart)

end Words

end Elua.Foundation
