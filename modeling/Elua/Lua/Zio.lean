import Mathlib.Data.List.Basic

/-!
# Buffered input streams

`lzio.c` and `lzio.h`. A stream holds the bytes still unread in the current buffer and asks its
reader for the next buffer when there are none; `i` counts the bytes read, and in direct mode
`base` is the memory at the base address, so that `i` is also the offset of the next byte in it.
`content` is all that a stream can still deliver. `luaZRead` splits it off whatever the sizes of
the reader's buffers (`luaZRead_of_content`), and whatever it delivers it took from there
(`content_of_luaZRead`).
-/

set_option autoImplicit false
set_option relaxedAutoImplicit false

namespace Elua.Lua

/-- A stream: the unread bytes at `p`, the buffers that the reader is still to deliver, the bytes
read so far, and in direct mode the memory from the base address on. -/
structure Zio where
  unread : List UInt8
  reader : List (List UInt8)
  i : ℕ
  base : Option (List UInt8)

/-- What a reader delivers before it reports the end, which an empty buffer does too. -/
def delivered : List (List UInt8) → List UInt8
  | [] => []
  | [] :: _ => []
  | (byte :: buff) :: later => byte :: buff ++ delivered later

/-- All the bytes a stream still has. -/
def Zio.content (z : Zio) : List UInt8 := z.unread ++ delivered z.reader

/-- `luaZ_init`, with the memory at the base address for a reader in direct mode. -/
def luaZInit (reader : List (List UInt8)) (base : Option (List UInt8)) : Zio where
  unread := []
  reader := reader
  i := 0
  base := base

/-- `luaZ_lookahead`: makes sure that there is an unread byte, `none` for `EOZ`. -/
def luaZLookahead (z : Zio) : Option Zio :=
  match z.unread, z.reader with
  | [], [] => none
  | [], [] :: _ => none
  | [], buff :: later => some { z with unread := buff, reader := later }
  | _ :: _, _ => some z

/-- The loop of `luaZ_read`, which takes at least one byte in each turn. -/
def luaZReadLoop : ℕ → ℕ → Zio → List UInt8 → Option (List UInt8 × Zio)
  | _, 0, z, got => some (got, z)
  | 0, _ + 1, _, _ => none
  | turns + 1, n + 1, z, got =>
    match luaZLookahead z with
    | none => none
    | some z =>
      let m := min (n + 1) z.unread.length
      luaZReadLoop turns (n + 1 - m) { z with unread := z.unread.drop m, i := z.i + m }
        (got ++ z.unread.take m)

/-- `luaZ_read`: the next `n` bytes, `none` where some are missing. -/
def luaZRead (z : Zio) (n : ℕ) : Option (List UInt8 × Zio) := luaZReadLoop n n z []

/-! ### What reading does to the content -/

/-- Looking ahead finds an unread byte and leaves the content as it is. -/
theorem luaZLookahead_some {z ahead : Zio} (hahead : luaZLookahead z = some ahead) :
    ahead.content = z.content ∧ ahead.unread ≠ [] ∧ ahead.i = z.i ∧ ahead.base = z.base := by
  obtain ⟨unread, reader, i, base⟩ := z
  rcases unread with _ | ⟨byte, unread⟩
  · rcases reader with _ | ⟨_ | ⟨byte, buff⟩, later⟩
    · cases hahead
    · cases hahead
    · cases hahead
      exact ⟨rfl, List.cons_ne_nil _ _, rfl, rfl⟩
  · cases hahead
    exact ⟨rfl, List.cons_ne_nil _ _, rfl, rfl⟩

/-- Looking ahead succeeds while there is content. -/
theorem exists_luaZLookahead {z : Zio} (hcontent : z.content ≠ []) :
    ∃ ahead, luaZLookahead z = some ahead := by
  obtain ⟨unread, reader, i, base⟩ := z
  rcases unread with _ | ⟨byte, unread⟩
  · rcases reader with _ | ⟨_ | ⟨byte, buff⟩, later⟩
    · exact absurd rfl hcontent
    · exact absurd rfl hcontent
    · exact ⟨_, rfl⟩
  · exact ⟨_, rfl⟩

theorem content_of_luaZReadLoop {turns n : ℕ} {z after : Zio} {got bytes : List UInt8}
    (hread : luaZReadLoop turns n z got = some (bytes, after)) :
    ∃ new, bytes = got ++ new ∧ new.length = n ∧ z.content = new ++ after.content ∧
      after.i = z.i + n ∧ after.base = z.base := by
  induction turns generalizing n z got with
  | zero =>
    rcases n with _ | n
    · cases hread
      exact ⟨[], by simp⟩
    · cases hread
  | succ turns ih =>
    rcases n with _ | n
    · cases hread
      exact ⟨[], by simp⟩
    · rw [luaZReadLoop] at hread
      cases hahead : luaZLookahead z with
      | none =>
        rw [hahead] at hread
        cases hread
      | some ahead =>
        rw [hahead] at hread
        obtain ⟨hsame, -, hi, hbase⟩ := luaZLookahead_some hahead
        obtain ⟨new, hbytes, hlength, hcontent, hafter, hbase'⟩ := ih hread
        refine ⟨ahead.unread.take (min (n + 1) ahead.unread.length) ++ new, ?_, ?_, ?_, ?_, ?_⟩
        · rw [hbytes, List.append_assoc]
        · rw [List.length_append, List.length_take, hlength]
          omega
        · rw [List.append_assoc, ← hcontent, ← hsame]
          unfold Zio.content
          rw [← List.append_assoc, List.take_append_drop]
        · rw [hafter]
          change ahead.i + _ + _ = _
          omega
        · rw [hbase']
          exact hbase

/-- What `luaZ_read` delivers are the first bytes of the content, and the rest is left. -/
theorem content_of_luaZRead {n : ℕ} {z after : Zio} {bytes : List UInt8}
    (hread : luaZRead z n = some (bytes, after)) :
    bytes.length = n ∧ z.content = bytes ++ after.content ∧ after.i = z.i + n ∧
      after.base = z.base := by
  obtain ⟨new, hbytes, hrest⟩ := content_of_luaZReadLoop hread
  rw [List.nil_append] at hbytes
  rw [hbytes]
  exact hrest

theorem exists_luaZReadLoop {turns n : ℕ} {z : Zio} {got : List UInt8} (hturns : n ≤ turns)
    (hcontent : n ≤ z.content.length) :
    ∃ bytes after, luaZReadLoop turns n z got = some (bytes, after) := by
  induction turns generalizing n z got with
  | zero =>
    obtain rfl := Nat.le_zero.mp hturns
    exact ⟨got, z, rfl⟩
  | succ turns ih =>
    rcases n with _ | n
    · exact ⟨got, z, rfl⟩
    · obtain ⟨ahead, hahead⟩ := exists_luaZLookahead (z := z) (List.ne_nil_of_length_pos (by omega))
      obtain ⟨hsame, hnonempty, -, -⟩ := luaZLookahead_some hahead
      have hpositive := List.length_pos_of_ne_nil hnonempty
      rw [luaZReadLoop, hahead]
      apply ih
      · omega
      · rw [← hsame] at hcontent
        unfold Zio.content at hcontent ⊢
        rw [List.length_append] at hcontent
        rw [List.length_append, List.length_drop]
        change _ ≤ _ + (delivered ahead.reader).length
        omega

/-- `luaZ_read` delivers the bytes the content starts with, however the reader buffers them. -/
theorem luaZRead_of_content {z : Zio} {bytes rest : List UInt8}
    (hcontent : z.content = bytes ++ rest) :
    ∃ after, luaZRead z bytes.length = some (bytes, after) ∧ after.content = rest ∧
      after.i = z.i + bytes.length ∧ after.base = z.base := by
  obtain ⟨delivered, after, hread⟩ := @exists_luaZReadLoop bytes.length bytes.length z [] (Nat.le_refl _)
    (by rw [hcontent, List.length_append]; exact Nat.le_add_right _ _)
  obtain ⟨hlength, hsplit, hi, hbase⟩ := content_of_luaZRead hread
  have hsame := List.append_inj (hcontent.symm.trans hsplit) hlength.symm
  rw [← hsame.1] at hread
  exact ⟨after, hread, hsame.2.symm, hi, hbase⟩

end Elua.Lua
