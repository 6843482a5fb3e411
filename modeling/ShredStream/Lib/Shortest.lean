import ShredStream.Lib.Cursor
import ShredStream.Lib.Numeral

/-!
# Shortest Forms

Where a value may be written in several ways, one of them may be the shortest
and the only one of its length. That is a relation between two strings, and it
goes through everything a format is made of: what is written one way only,
pieces one after the other, the elements of a list, and varints, of which the
minimal field is the shortest.

So a writer that writes every varint minimally writes the shortest form of a
whole value, and no other form is as short.

## Main definitions

* `Shortest`: Not longer, and the only one if not shorter.

## Theorems

* `shortest_append`: Pieces one after the other.
* `shortest_many`: The elements of a list.
* `Varint.shortest_encode`: The minimal field.
-/

namespace ShredStream

variable {α β : Type}

/-- `w` is at most as long as `w'`, and they are the same if they have the
    same length. -/
def Shortest (w w' : List β) : Prop :=
  w.length ≤ w'.length ∧ (w'.length = w.length → w' = w)

theorem shortest_refl (w : List β) : Shortest w w := ⟨Nat.le_refl _, fun _ => rfl⟩

/-- A longer string is not the shortest. -/
theorem shortest_of_lt (w w' : List β) (h : w.length < w'.length) : Shortest w w' :=
  ⟨Nat.le_of_lt h, fun heq => absurd heq (Nat.ne_of_gt h)⟩

theorem shortest_append (a a' b b' : List β) (ha : Shortest a a') (hb : Shortest b b') :
    Shortest (a ++ b) (a' ++ b') := by
  have hlen := ha.1
  have hlen' := hb.1
  refine ⟨?_, fun heq => ?_⟩
  · rw [List.length_append, List.length_append]
    omega
  · -- Neither part can be longer, so neither is different.
    rw [List.length_append, List.length_append] at heq
    rw [ha.2 (by omega), hb.2 (by omega)]

/-- What follows only makes it longer. -/
theorem shortest_append_right (w w' rest : List β) (h : Shortest w w') :
    Shortest w (w' ++ rest) := by
  have hrest : Shortest [] rest := ⟨Nat.zero_le _, List.length_eq_zero_iff.mp⟩
  have happend := shortest_append w w' [] rest h hrest
  rwa [List.append_nil] at happend

/-- The elements of a list, one after the other. -/
theorem shortest_many (G : α → List β → Prop) (enc : α → List β) (as : List α) (ws : List β)
    (hmany : Cursor.Many G as ws) (h : ∀ a w, G a w → Shortest (enc a) w) :
    Shortest (as.flatMap enc) ws := by
  induction hmany with
  | nil => exact shortest_refl []
  | cons a as w ws hw _ ih =>
      rw [List.flatMap_cons]
      exact shortest_append _ _ _ _ (h a w hw) ih

/-- Every element of a list is written somehow. -/
theorem many_mem (G : α → List β → Prop) (as : List α) (ws : List β) (hmany : Cursor.Many G as ws) :
    ∀ a ∈ as, ∃ w, G a w := by
  induction hmany with
  | nil =>
      intro a ha
      exact absurd ha List.not_mem_nil
  | cons b as w ws hw _ ih =>
      intro a ha
      rcases List.mem_cons.mp ha with rfl | ha
      · exact ⟨w, hw⟩
      · exact ih a ha

namespace Varint

/-- The minimal field of a number is its shortest. -/
theorem shortest_encode (w : List UInt8) (h : Terminated w) : Shortest (encode (value w)) w := by
  induction w with
  | nil => exact h.elim
  | cons b bs ih =>
      have hbyte := b.toNat_lt
      by_cases hb : b.toNat < 128
      · -- One byte is all there is.
        obtain rfl := (terminated_unmarked b bs hb).mp h
        have hvalue : value [b] = b.toNat := by
          rw [value, value, Nat.mod_eq_of_lt hb]
          omega
        rw [hvalue, encode_small _ hb, UInt8.ofNat_toNat]
        exact shortest_refl [b]
      · have hrest := (terminated_marked b bs hb).mp h
        by_cases hsmall : value (b :: bs) < 128
        · -- The groups behind the first are zero, and there is at least one.
          refine shortest_of_lt _ _ ?_
          rw [encode_small _ hsmall, List.length_singleton, List.length_cons]
          have := List.length_pos_iff.mpr (terminated_ne_nil bs hrest)
          omega
        · have hfirst : UInt8.ofNat (value (b :: bs) % 128 + 128) = b := by
            rw [← UInt8.toNat_inj, toNat_marked, value]
            omega
          have hdiv : value (b :: bs) / 128 = value bs := by
            rw [value]
            omega
          rw [encode_large _ hsmall, hfirst, hdiv]
          exact shortest_append [b] [b] _ bs (shortest_refl [b]) (ih hrest)

end Varint

end ShredStream
