import ShredStream.Lib.Loss

/-!
# Every Message Has Its Own Pieces

What an in-order receiver delivers, against what it was given. Whatever the
pieces are and in whatever order they come, with repetitions and with gaps,
each message delivered is made of pieces that came in the order of the message,
and no piece that came is used for two messages: the pieces of all messages,
one after the other, are a sublist of those that came.

So a receiver repeats a message only as often as every one of its pieces came.
The induction carries the pieces of the message in progress, which stand in
front of those that are still to come.

## Main definitions

* `Complete`: All pieces of a message.
* `Records`: The message in progress was made of these pieces.

## Theorems

* `records_feed`: One piece.
* `deliveries_windows`: Any pieces.
-/

namespace ShredStream

namespace Reassembly

variable {S β : Type} (succ : S → S)

/-- All pieces of a message: one that is the whole of it, or several in order. -/
def Complete (set : List (Piece S β)) : Prop :=
  (∃ p, set = [p] ∧ p.count = 1) ∨ 2 ≤ set.length ∧ ∃ s, InOrder succ set.length s set

/-- The message in progress was made of these pieces; of none if there is
    none. -/
def Records (st : Option (Partial S β)) (ps : List (Piece S β)) : Prop :=
  match st with
  | none => ps = []
  | some q => ∃ n s, q = recordOf succ n s ps ∧ InOrder succ n s ps ∧ 1 ≤ ps.length ∧ ps.length < n

variable [DecidableEq S]

/-- A piece comes: it completes a message, of itself or of what was in progress
    and itself, or what is in progress afterwards was made of pieces that have
    come. -/
theorem records_feed (st : Option (Partial S β)) (ps : List (Piece S β)) (p : Piece S β)
    (hp : p.Valid) (h : Records succ st ps) :
    (∃ set, Complete succ set ∧ set.Sublist (ps ++ [p]) ∧
      feed succ st p = (none, some (join set))) ∨
    ∃ ps', ps'.Sublist (ps ++ [p]) ∧ Records succ (feed succ st p).1 ps' ∧
      (feed succ st p).2 = none := by
  by_cases hc : p.count = 1
  · refine Or.inl ⟨[p], Or.inl ⟨p, rfl, hc⟩, List.sublist_append_right ps [p], ?_⟩
    unfold feed
    rw [if_pos hc, join, List.flatMap_singleton]
  by_cases hi : p.index = 0
  · have hfeed : feed succ st p = (some (start p), none) := by
      unfold feed
      rw [if_neg hc, if_pos hi]
    have hord := (inOrder_singleton succ p.count p.seq p).mpr ⟨rfl, hi, rfl⟩
    rw [hfeed]
    exact Or.inr ⟨[p], List.sublist_append_right ps [p],
      ⟨p.count, p.seq, start_eq_recordOf succ _ _ p hord, hord, Nat.le_refl 1,
        (hp.resolve_left hc).2⟩, rfl⟩
  by_cases hcont : ∃ q, st = some q ∧ Continues succ q p
  · rcases hcont with ⟨q, rfl, hcont⟩
    rcases h with ⟨n, s, rfl, hord, hpos, hlt⟩
    have hord' := (continues_recordOf_iff succ n s ps p hpos hord).mp hcont
    rcases (inOrder_append_singleton succ n s ps p).mp hord' with ⟨_, hcount, hindex, _⟩
    have hlen : (ps ++ [p]).length = ps.length + 1 := by
      rw [List.length_append, List.length_singleton]
    by_cases hl : p.index + 1 = p.count
    · -- The piece was the last that was missing.
      have hn : (ps ++ [p]).length = n := by omega
      refine Or.inl ⟨ps ++ [p], Or.inr ⟨by omega, s, ?_⟩, List.Sublist.refl _, ?_⟩
      · rwa [hn]
      · rw [feed_continued succ _ p hc hi hcont, if_pos hl, join_append_singleton]
        rfl
    · have hlast := (hp.resolve_left hc).1
      refine Or.inr ⟨ps ++ [p], List.Sublist.refl _, ?_, ?_⟩
      · rw [feed_continued succ _ p hc hi hcont, if_neg hl]
        exact ⟨n, s, extend_recordOf succ n s ps p hord', hord', by omega, by omega⟩
      · rw [feed_continued succ _ p hc hi hcont, if_neg hl]
  · -- What was in progress is given up.
    refine Or.inr ⟨[], List.nil_sublist _, ?_, ?_⟩
    · rw [feed_broken succ st p hc hi hcont]
      rfl
    · rw [feed_broken succ st p hc hi hcont]

/-- The messages delivered are made of complete sets of pieces, and these sets
    are, one after the other, among the pieces that came. -/
theorem deliveries_windows (later : List (Piece S β)) (hvalid : ∀ p ∈ later, p.Valid) :
    ∀ (st : Option (Partial S β)) (ps : List (Piece S β)), Records succ st ps →
      ∃ sets : List (List (Piece S β)), (∀ set ∈ sets, Complete succ set) ∧
        sets.flatten.Sublist (ps ++ later) ∧ deliveries succ st later = sets.map join := by
  induction later with
  | nil =>
      intro st ps _
      exact ⟨[], fun set hset => absurd hset List.not_mem_nil, List.nil_sublist _, rfl⟩
  | cons p later ih =>
      intro st ps h
      have hrest : ∀ q ∈ later, q.Valid := fun q hq => hvalid q (List.mem_cons_of_mem p hq)
      have hcome : ps ++ p :: later = ps ++ [p] ++ later := by
        rw [List.append_assoc, List.singleton_append]
      rcases records_feed succ st ps p (hvalid p List.mem_cons_self) h with
        ⟨set, hset, hsub, hfeed⟩ | ⟨ps', hsub, hrecords, hnone⟩
      · rcases ih hrest none [] rfl with ⟨sets, hsets, hflat, hdel⟩
        rw [List.nil_append] at hflat
        refine ⟨set :: sets, fun x hx => ?_, ?_, ?_⟩
        · rcases List.mem_cons.mp hx with rfl | hx
          · exact hset
          · exact hsets x hx
        · rw [List.flatten_cons, hcome]
          exact hsub.append hflat
        · rw [deliveries, hfeed, hdel, List.map_cons, Option.toList_some, List.singleton_append]
      · rcases ih hrest _ ps' hrecords with ⟨sets, hsets, hflat, hdel⟩
        refine ⟨sets, hsets, ?_, ?_⟩
        · rw [hcome]
          exact hflat.trans (hsub.append (List.Sublist.refl later))
        · rw [deliveries, hnone, hdel, Option.toList_none, List.nil_append]

end Reassembly

end ShredStream
