import Mathlib.Data.List.Basic
import Mathlib.Data.List.Perm.Basic

/-!
# The channels of a multiplexed stream

A multiplexed stream is a list of items tagged with the channel they belong to. `channel key items`
is the sequence of one channel. Two streams that agree on every channel differ only in how the
channels are interleaved (`perm_of_channel_eq`).
-/

set_option autoImplicit false
set_option relaxedAutoImplicit false

namespace Elua.Foundation

variable {Key Item : Type*} [DecidableEq Key]

/-- The items of one channel of a multiplexed stream, in order. -/
def channel (key : Key) (items : List (Key × Item)) : List Item :=
  (items.filter fun item ↦ item.1 = key).map Prod.snd

@[simp] theorem channel_nil (key : Key) : channel key ([] : List (Key × Item)) = [] := rfl

theorem channel_cons (key : Key) (item : Key × Item) (items : List (Key × Item)) :
    channel key (item :: items) =
      (if item.1 = key then [item.2] else []) ++ channel key items := by
  by_cases hkey : item.1 = key <;> simp [channel, hkey]

/-- The items of a channel, tagged again, are the part of the stream that belongs to it. -/
theorem map_channel (key : Key) (items : List (Key × Item)) :
    (channel key items).map (key, ·) = items.filter fun item ↦ item.1 = key := by
  rw [channel, List.map_map]
  refine (List.map_congr_left fun item hitem ↦ ?_).trans (List.map_id _)
  have hkey : item.1 = key := of_decide_eq_true (List.mem_filter.mp hitem).2
  simp [← hkey]

/-- Streams with the same channels are permutations of each other. -/
theorem perm_of_channel_eq [DecidableEq Item] {first second : List (Key × Item)}
    (hchannels : ∀ key, channel key first = channel key second) : first.Perm second := by
  refine List.perm_iff_count.mpr fun item ↦ ?_
  have hcount : ∀ items : List (Key × Item),
      items.count item = (items.filter fun other ↦ other.1 = item.1).count item := fun items ↦
    (List.count_filter (by simp)).symm
  rw [hcount first, hcount second, ← map_channel, ← map_channel, hchannels]

end Elua.Foundation
