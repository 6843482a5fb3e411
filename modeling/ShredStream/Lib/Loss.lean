import Mathlib.Data.List.Chain
import ShredStream.Lib.Reassembly

/-!
# In-order Reassembly under Loss

A sender cuts messages into pieces and sends the pieces of one message before
those of the next. On the way pieces get lost; the others stay in order. The
receiver of `Lib/Reassembly.lean` then delivers exactly the messages of which
every piece arrives and whose pieces are numbered consecutively, in the order
in which they were sent.

Two facts make this work. A message in progress can only be continued by the
piece that was sent next in the same message, since a piece of a later message
never carries the number it waits for (`Apart`). So pieces left over from a
message that lost some neither complete it nor get mixed into another. And
whatever is in progress when a first piece arrives is given up, so a message
that arrives whole never suffers from what was lost before it.

## Main definitions

* `deliveries`, `pending`: What is delivered from a message in progress on, and
  what is in progress then.
* `Intact`: All pieces of a message arrive, and they are numbered consecutively.
* `Apart`: No message is continued by a piece of a later one.
* `Tail`: What becomes of a message in progress.

## Theorems

* `deliveries_append`: Delivering goes on from what is in progress.
* `feed_tail`: The pieces behind the first, from a message in progress.
* `feed_crossing`: One message crosses, from any state that is foreign to it.
* `deliveries_crossings`: What is delivered of a stream of messages.
-/

namespace ShredStream

namespace Reassembly

variable {S β : Type} (succ : S → S)

/-- The number of the second piece is the one after that of the first. -/
def Follows (p p' : Piece S β) : Prop := p'.seq = succ p.seq

/-- Every piece of the message arrives, and they are numbered consecutively. -/
def Intact (sent arrived : List (Piece S β)) : Prop :=
  arrived = sent ∧ sent.IsChain (Follows succ)

/-- No piece but the last of a message is followed, in its number, by a piece
    of a later message. -/
def Apart (g g' : List (Piece S β)) : Prop :=
  ∀ p ∈ g.dropLast, ∀ p' ∈ g', ¬ Follows succ p p'

/-- None of the pieces continues the message in progress. -/
def Foreign (st : Option (Partial S β)) (ps : List (Piece S β)) : Prop :=
  ∀ q, st = some q → ∀ p ∈ ps, ¬ Continues succ q p

theorem foreign_none (ps : List (Piece S β)) : Foreign succ none ps := by
  intro q hq
  cases hq

/-- A message in progress waits for the number after that of a piece but the
    last of its message. -/
def Stands (g : List (Piece S β)) (st : Option (Partial S β)) : Prop :=
  ∀ q, st = some q → ∃ p ∈ g.dropLast, q.last = p.seq

theorem stands_none (g : List (Piece S β)) : Stands g none := by
  intro q hq
  cases hq

section Receiver

variable [DecidableEq S]

/-- The messages delivered from a message in progress on. -/
def deliveries : Option (Partial S β) → List (Piece S β) → List (List β)
  | _, [] => []
  | st, p :: ps => (feed succ st p).2.toList ++ deliveries (feed succ st p).1 ps

/-- The message in progress after some more pieces. -/
def pending (st : Option (Partial S β)) (ps : List (Piece S β)) : Option (Partial S β) :=
  ps.foldl (fun st p => (feed succ st p).1) st

theorem deliveries_append (ps ps' : List (Piece S β)) : ∀ st : Option (Partial S β),
    deliveries succ st (ps ++ ps')
      = deliveries succ st ps ++ deliveries succ (pending succ st ps) ps' := by
  induction ps with
  | nil =>
      intro st
      rfl
  | cons p ps ih =>
      intro st
      simp only [List.cons_append, deliveries, ih, pending, List.foldl_cons, List.append_assoc]

/-- Later pieces with nothing to continue deliver nothing and leave nothing. -/
theorem feed_later (ps : List (Piece S β)) (hlater : ∀ p ∈ ps, p.count ≠ 1 ∧ p.index ≠ 0) :
    ∀ st : Option (Partial S β), Foreign succ st ps → deliveries succ st ps = [] ∧
      (ps = [] ∨ pending succ st ps = none) := by
  induction ps with
  | nil =>
      intro st _
      exact ⟨rfl, Or.inl rfl⟩
  | cons p ps ih =>
      intro st hst
      have hp := hlater p List.mem_cons_self
      -- The first of them gives up what there is; the others find nothing.
      have hfeed : feed succ st p = (none, none) := by
        refine feed_broken succ st p hp.1 hp.2 ?_
        rintro ⟨q, hq, hc⟩
        exact hst q hq p List.mem_cons_self hc
      have hrest := ih (fun p' hp' => hlater p' (List.mem_cons_of_mem _ hp')) none
        (foreign_none succ ps)
      rw [deliveries, pending, List.foldl_cons, hfeed]
      refine ⟨by rw [hrest.1]; rfl, Or.inr ?_⟩
      rcases hrest.2 with rfl | h
      · rfl
      · exact h

/-- What becomes of a message in progress, whose last piece was `prev`, when
    `r` arrives of the pieces that are left: it is delivered if all of them
    arrive and follow one another, and otherwise nothing is. -/
structure Tail (prev : Piece S β) (q : Partial S β) (rest r : List (Piece S β)) : Prop where
  whole : r = rest ∧ (prev :: rest).IsChain (Follows succ) →
    deliveries succ (some q) r = [q.buf ++ join rest]
  part : ¬ (r = rest ∧ (prev :: rest).IsChain (Follows succ)) → deliveries succ (some q) r = []
  stands : Stands (prev :: rest) (pending succ (some q) r)

/-- A message that nothing continues is given up. -/
theorem tail_given_up (prev p : Piece S β) (q : Partial S β) (rest r : List (Piece S β))
    (hlast : q.last = prev.seq) (hlater : ∀ p' ∈ r, p'.count ≠ 1 ∧ p'.index ≠ 0)
    (hforeign : Foreign succ (some q) r)
    (hpart : ¬ (r = p :: rest ∧ (prev :: p :: rest).IsChain (Follows succ))) :
    Tail succ prev q (p :: rest) r := by
  have hnone := feed_later succ r hlater (some q) hforeign
  refine ⟨fun h => absurd h hpart, fun _ => hnone.1, ?_⟩
  rcases hnone.2 with rfl | h
  · intro q' hq'
    cases hq'
    exact ⟨prev, List.mem_cons_self, hlast⟩
  · rw [h]
    exact stands_none _

/-- The last piece completes the message. -/
theorem tail_last (prev p : Piece S β) (q : Partial S β)
    (hfeed : feed succ (some q) p = (none, some (q.buf ++ p.body)))
    (hfollows : Follows succ prev p) : Tail succ prev q [p] [p] := by
  have hchain : [prev, p].IsChain (Follows succ) :=
    List.isChain_cons_cons.mpr ⟨hfollows, List.isChain_singleton p⟩
  refine ⟨fun _ => ?_, fun h => absurd ⟨rfl, hchain⟩ h, ?_⟩
  · rw [deliveries, hfeed, join, List.flatMap_singleton]
    rfl
  · rw [pending, List.foldl_cons, hfeed]
    exact stands_none _

/-- Any other piece takes the message on to the pieces behind it. -/
theorem tail_extended (prev p : Piece S β) (q : Partial S β) (rest r : List (Piece S β))
    (hfeed : feed succ (some q) p = (some (q.extend p), none))
    (hfollows : Follows succ prev p) (h : Tail succ p (q.extend p) rest r) :
    Tail succ prev q (p :: rest) (p :: r) := by
  have hiff : (p :: r = p :: rest ∧ (prev :: p :: rest).IsChain (Follows succ)) ↔
      (r = rest ∧ (p :: rest).IsChain (Follows succ)) := by
    rw [List.cons.injEq, List.isChain_cons_cons]
    simp only [hfollows, true_and]
  refine ⟨fun hall => ?_, fun hsome => ?_, fun q' hq' => ?_⟩
  · rw [deliveries, hfeed, Option.toList_none, List.nil_append, h.whole (hiff.mp hall),
      Partial.extend, List.append_assoc]
    rfl
  · rw [deliveries, hfeed]
    exact h.part (fun hall => hsome (hiff.mpr hall))
  · rw [pending, List.foldl_cons, hfeed] at hq'
    rcases h.stands q' hq' with ⟨x, hx, hq⟩
    refine ⟨x, ?_, hq⟩
    rw [List.dropLast_cons_of_ne_nil (List.cons_ne_nil p rest)]
    exact List.mem_cons_of_mem prev hx

/-- The pieces behind the first of a message, some of them lost: they complete
    the message in progress when they are all there and follow one another. -/
theorem feed_tail (n : Nat) (rest : List (Piece S β)) : ∀ (i : Nat) (prev : Piece S β)
    (q : Partial S β) (r : List (Piece S β)), rest ≠ [] → 1 ≤ i → i + rest.length = n →
    (∀ (j : Nat) (p : Piece S β), rest[j]? = some p → p.index = i + j ∧ p.count = n) →
    r.Sublist rest → q.count = n → q.next = i → q.last = prev.seq →
      Tail succ prev q rest r := by
  induction rest with
  | nil =>
      intro _ _ _ _ hne
      exact absurd rfl hne
  | cons p rest ih =>
      intro i prev q r _ hi hn hg hr hcount hnext hlast
      rw [List.length_cons] at hn
      have hp := hg 0 p rfl
      have hlater : ∀ p' ∈ p :: rest, p'.count ≠ 1 ∧ p'.index ≠ 0 := by
        intro p' hp'
        rcases List.mem_iff_getElem?.mp hp' with ⟨j, hj⟩
        have := hg j p' hj
        omega
      have hbehind : ∀ p' ∈ rest, ¬ Continues succ q p' := by
        intro p' hp' hc
        rcases List.mem_iff_getElem?.mp hp' with ⟨j, hj⟩
        have := hg (j + 1) p' hj
        have := hc.2.1
        omega
      rcases List.sublist_cons_iff.mp hr with hskip | ⟨r, rfl, hr'⟩
      · -- The next piece is lost, and no other continues the message.
        refine tail_given_up succ prev p q rest r hlast
          (fun p' hp' => hlater p' (hr.subset hp')) ?_ ?_
        · intro q' hq' p' hp'
          cases hq'
          exact hbehind p' (hskip.subset hp')
        · intro h
          have := hskip.length_le
          rw [h.1, List.length_cons] at this
          omega
      by_cases hfollows : Follows succ prev p
      · have hcont : Continues succ q p := ⟨hcount.trans hp.2.symm, hp.1.trans hnext.symm, by
          rw [hlast]
          exact hfollows⟩
        have hmem := hlater p List.mem_cons_self
        have hfeed := feed_continued succ q p hmem.1 hmem.2 hcont
        cases rest with
        | nil =>
            rw [if_pos (by rw [List.length_nil] at hn; omega)] at hfeed
            rw [List.sublist_nil.mp hr']
            exact tail_last succ prev p q hfeed hfollows
        | cons p' rest =>
            rw [if_neg (by rw [List.length_cons] at hn; omega)] at hfeed
            refine tail_extended succ prev p q (p' :: rest) r hfeed hfollows ?_
            exact ih (i + 1) p (q.extend p) r (List.cons_ne_nil _ _) (by omega) (by omega)
              (fun j x hx => by have := hg (j + 1) x hx; omega) hr' hcount
              (by rw [Partial.extend, hnext]) rfl
      · -- The number does not fit, and the message is given up.
        refine tail_given_up succ prev p q rest (p :: r) hlast
          (fun p' hp' => hlater p' (hr.subset hp')) ?_
          (fun h => hfollows (List.isChain_cons_cons.mp h.2).1)
        intro q' hq' p' hp'
        cases hq'
        rcases List.mem_cons.mp hp' with rfl | hp'
        · intro hc
          refine hfollows ?_
          rw [Follows, ← hlast]
          exact hc.2.2
        · exact hbehind p' (hr'.subset hp')

/-- One message crosses, from a state that none of its pieces continues. -/
theorem feed_crossing (sent r : List (Piece S β)) (hg : Group sent) (hr : r.Sublist sent)
    (st : Option (Partial S β)) (hst : Foreign succ st sent) :
    (Intact succ sent r → deliveries succ st r = [join sent]) ∧
    (¬ Intact succ sent r → deliveries succ st r = []) ∧
    ((r = [] ∧ pending succ st r = st) ∨ Stands sent (pending succ st r)) := by
  cases sent with
  | nil => exact absurd rfl hg.1
  | cons p rest =>
      have hp := hg.2 0 p rfl
      have hlater : ∀ p' ∈ rest, p'.count ≠ 1 ∧ p'.index ≠ 0 := by
        intro p' hp'
        rcases List.mem_iff_getElem?.mp hp' with ⟨j, hj⟩
        have := hg.2 (j + 1) p' hj
        have hlt := (List.getElem?_eq_some_iff.mp hj).1
        rw [List.length_cons] at this
        omega
      rw [List.length_cons] at hp
      simp only [Intact]
      rcases List.sublist_cons_iff.mp hr with hskip | ⟨r, rfl, hr'⟩
      · -- Without its first piece the message is lost.
        have hrest := feed_later succ r (fun p' hp' => hlater p' (hskip.subset hp')) st
          (fun q hq p' hp' => hst q hq p' (List.mem_cons_of_mem _ (hskip.subset hp')))
        refine ⟨fun h => ?_, fun _ => hrest.1, ?_⟩
        · have := hskip.length_le
          rw [h.1, List.length_cons] at this
          omega
        · rcases hrest.2 with rfl | h
          · exact Or.inl ⟨rfl, rfl⟩
          · rw [h]
            exact Or.inr (stands_none _)
      · rw [deliveries, pending, List.foldl_cons]
        cases rest with
        | nil =>
            -- A message of one piece.
            have hfeed : feed succ st p = (none, some p.body) := by
              unfold feed
              rw [if_pos (by rw [hp.2]; rfl)]
            rw [List.sublist_nil.mp hr', hfeed]
            refine ⟨fun _ => ?_, fun h => absurd ⟨rfl, List.isChain_singleton p⟩ h,
              Or.inr (stands_none _)⟩
            rw [join, List.flatMap_singleton]
            rfl
        | cons p' rest =>
            have hfeed : feed succ st p = (some (start p), none) := by
              unfold feed
              rw [if_neg (by rw [hp.2, List.length_cons]; omega), if_pos hp.1]
            rw [hfeed]
            rcases feed_tail succ p.count (p' :: rest) 1 p (start p) r (List.cons_ne_nil _ _)
              (Nat.le_refl 1) (by rw [hp.2, Nat.add_comm])
              (fun j x hx => by
                have := hg.2 (j + 1) x hx
                rw [List.length_cons] at this
                omega) hr' rfl rfl rfl with ⟨hall, hsome, hstands⟩
            rw [List.cons.injEq]
            simp only [true_and]
            refine ⟨fun h => ?_, hsome, Or.inr hstands⟩
            rw [Option.toList_none, List.nil_append, hall h]
            rfl

/-- What is delivered of a stream of messages: those that arrive intact, in
    the order in which they were sent. -/
theorem deliveries_crossings {ι : Type} (sent arrived : ι → List (Piece S β))
    [∀ x, Decidable (Intact succ (sent x) (arrived x))] (xs : List ι)
    (hgroup : ∀ x ∈ xs, Group (sent x)) (hlossy : ∀ x ∈ xs, (arrived x).Sublist (sent x))
    (hapart : xs.Pairwise (fun x x' => Apart succ (sent x) (sent x'))) :
    ∀ st : Option (Partial S β), (∀ x ∈ xs, Foreign succ st (sent x)) →
      deliveries succ st (xs.flatMap arrived)
        = (xs.filter (fun x => Intact succ (sent x) (arrived x))).map (fun x => join (sent x)) := by
  induction xs with
  | nil =>
      intro st _
      rfl
  | cons x xs ih =>
      intro st hst
      rcases List.pairwise_cons.mp hapart with ⟨hx, hxs⟩
      rcases feed_crossing succ (sent x) (arrived x) (hgroup x List.mem_cons_self)
        (hlossy x List.mem_cons_self) st (hst x List.mem_cons_self) with ⟨hall, hsome, hstands⟩
      -- What is in progress now is continued by no piece of the messages to come.
      have hnext : ∀ x' ∈ xs, Foreign succ (pending succ st (arrived x)) (sent x') := by
        intro x' hx' q hq p' hp' hc
        rcases hstands with ⟨_, hsame⟩ | hstands
        · rw [hsame] at hq
          exact hst x' (List.mem_cons_of_mem _ hx') q hq p' hp' hc
        · rcases hstands q hq with ⟨p, hp, hlast⟩
          refine hx x' hx' p hp p' hp' ?_
          rw [Follows, ← hlast]
          exact hc.2.2
      rw [List.flatMap_cons, deliveries_append,
        ih (fun x' hx' => hgroup x' (List.mem_cons_of_mem _ hx'))
          (fun x' hx' => hlossy x' (List.mem_cons_of_mem _ hx')) hxs _ hnext]
      by_cases hi : Intact succ (sent x) (arrived x)
      · simp only [hall hi, List.filter_cons, hi, decide_true, if_true, List.map_cons,
          List.singleton_append]
      · simp only [hsome hi, List.filter_cons, hi, decide_false, Bool.false_eq_true, if_false,
          List.nil_append]

end Receiver

end Reassembly

end ShredStream
