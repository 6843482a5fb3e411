import Mathlib.Data.List.Basic
import Mathlib.Data.List.Induction
import Mathlib.Logic.Function.Iterate

/-!
# In-order Reassembly

Messages cut into numbered pieces and put back together by a receiver that
keeps one message at a time and accepts pieces strictly in order.

`feed` is that receiver as a transition on the message in progress. A piece
that is the whole message is delivered as it is; a piece with index zero
starts a message; any other piece must continue the one in progress in every
respect, or the message in progress is given up.

The receiver's memory can be read off its input. After the pieces `h` it has
`q` in progress exactly when `h` ends in an in-order run that `q` records
(`after_eq_some_iff`), and it delivers on a piece exactly when the input ends
in a complete in-order run (`feed_delivers_iff`). Nothing that came before
that run matters, and nothing about it can prevent the delivery.

The second half is about the sender. Where pieces of a message are adjacent
in the stream that was sent, a stretch that starts with a first piece and has
that piece's count of entries is one whole message (`group_of_stretch`).

## Main definitions

* `Piece`: One piece of a message.
* `Partial`: The message in progress.
* `feed`: The receiver.
* `after`: The message in progress after a list of pieces.
* `InOrder`: Pieces of one message in order, from its first.
* `Whole`: A history that ends with a complete message.
* `recordOf`: The message in progress that records a run.
* `Group`: The pieces of one message, as a sender sends them.

## Theorems

* `after_eq_some_iff`: What is in progress is what the input ends in.
* `feed_delivers_iff`: What is delivered is what the input ends in.
* `group_of_stretch`: A stretch of the right length is one message.
-/

namespace ShredStream

namespace Reassembly

/-- One piece of a message, with its place in it and its sequence number. -/
structure Piece (S β : Type) where
  index : Nat
  count : Nat
  seq : S
  body : List β

/-- The index fits the count; a lone piece is the whole message, whatever its
    index. -/
def Piece.Valid {S β : Type} (p : Piece S β) : Prop :=
  p.count = 1 ∨ p.index < p.count ∧ 2 ≤ p.count

/-- A message in progress: how many pieces it has, which one is next, the
    sequence number of the last one, and what has been collected. -/
structure Partial (S β : Type) where
  count : Nat
  next : Nat
  last : S
  buf : List β

/-- The bodies of the pieces, joined. -/
def join {S β : Type} (ps : List (Piece S β)) : List β :=
  ps.flatMap (fun p => p.body)

variable {S β : Type} (succ : S → S)

/-- The piece continues the message in progress. -/
def Continues (q : Partial S β) (p : Piece S β) : Prop :=
  q.count = p.count ∧ p.index = q.next ∧ p.seq = succ q.last

instance [DecidableEq S] (q : Partial S β) (p : Piece S β) : Decidable (Continues succ q p) :=
  inferInstanceAs (Decidable (_ ∧ _ ∧ _))

/-- The message in progress that a first piece starts. -/
def start (p : Piece S β) : Partial S β := ⟨p.count, 1, p.seq, p.body⟩

/-- The message in progress with one more piece. -/
def Partial.extend (q : Partial S β) (p : Piece S β) : Partial S β :=
  ⟨q.count, q.next + 1, p.seq, q.buf ++ p.body⟩

/-- One piece arrives: the message in progress afterwards, and the message
    delivered, if any. -/
def feed [DecidableEq S] (st : Option (Partial S β)) (p : Piece S β) :
    Option (Partial S β) × Option (List β) :=
  if p.count = 1 then (none, some p.body)
  else if p.index = 0 then (some (start p), none)
  else match st with
    | none => (none, none)
    | some q =>
      if Continues succ q p then
        if p.index + 1 = p.count then (none, some (q.buf ++ p.body))
        else (some (q.extend p), none)
      else (none, none)

/-- The message in progress after a list of pieces. -/
def after [DecidableEq S] (h : List (Piece S β)) : Option (Partial S β) :=
  h.foldl (fun st p => (feed succ st p).1) none

/-- Pieces `0, 1, ...` of a message of `n` pieces, numbered from `s` on. -/
def InOrder (n : Nat) (s : S) (ps : List (Piece S β)) : Prop :=
  ∀ i p, ps[i]? = some p → p.count = n ∧ p.index = i ∧ p.seq = succ^[i] s

/-- The history ends with pieces of one message in order, not all of them
    yet, and `q` records them. -/
def Open (h : List (Piece S β)) (q : Partial S β) : Prop :=
  ∃ older ps s, h = older ++ ps ∧ InOrder succ q.count s ps ∧ 1 ≤ q.next ∧ q.next < q.count ∧
    ps.length = q.next ∧ q.last = succ^[q.next - 1] s ∧ q.buf = join ps

/-- The history ends with a complete message `w`: one piece that is the whole
    of it, or all its pieces in order. -/
def Whole (h : List (Piece S β)) (w : List β) : Prop :=
  ∃ older ps, h = older ++ ps ∧ w = join ps ∧
    ((∃ p, ps = [p] ∧ p.count = 1) ∨ 2 ≤ ps.length ∧ ∃ s, InOrder succ ps.length s ps)

theorem join_append_singleton (ps : List (Piece S β)) (p : Piece S β) :
    join (ps ++ [p]) = join ps ++ p.body := by
  simp only [join, List.flatMap_append, List.flatMap_cons, List.flatMap_nil, List.append_nil]

theorem inOrder_nil (n : Nat) (s : S) : InOrder succ n s ([] : List (Piece S β)) := by
  intro i p h
  simp only [List.getElem?_nil, reduceCtorEq] at h

/-- One more piece is in order when it is the next one. -/
theorem inOrder_append_singleton (n : Nat) (s : S) (ps : List (Piece S β)) (p : Piece S β) :
    InOrder succ n s (ps ++ [p]) ↔ InOrder succ n s ps ∧ p.count = n ∧ p.index = ps.length ∧
      p.seq = succ^[ps.length] s := by
  constructor
  · intro h
    refine ⟨fun i q hq => h i q ?_, h ps.length p ?_⟩
    · rw [List.getElem?_append_left (List.getElem?_eq_some_iff.mp hq).1]
      exact hq
    · rw [List.getElem?_concat_length]
  · rintro ⟨h, hp⟩ i q hq
    rcases Nat.lt_or_ge i ps.length with hi | hi
    · rw [List.getElem?_append_left hi] at hq
      exact h i q hq
    · have hlt := (List.getElem?_eq_some_iff.mp hq).1
      rw [List.length_append, List.length_singleton] at hlt
      have heq : i = ps.length := by omega
      subst heq
      rw [List.getElem?_concat_length, Option.some.injEq] at hq
      rwa [← hq]

theorem inOrder_singleton (n : Nat) (s : S) (p : Piece S β) :
    InOrder succ n s [p] ↔ p.count = n ∧ p.index = 0 ∧ p.seq = s := by
  have h := inOrder_append_singleton succ n s [] p
  simpa only [List.nil_append, List.length_nil, Function.iterate_zero, id_eq, inOrder_nil,
    true_and] using h

/-! ### Runs and what records them -/

/-- What records a run: the message in progress after its pieces. -/
def recordOf (n : Nat) (s : S) (ps : List (Piece S β)) : Partial S β :=
  ⟨n, ps.length, succ^[ps.length - 1] s, join ps⟩

/-- An open history ends in a run that is recorded. -/
theorem open_iff (h : List (Piece S β)) (q : Partial S β) :
    Open succ h q ↔ ∃ older ps n s, h = older ++ ps ∧ InOrder succ n s ps ∧ 1 ≤ ps.length ∧
      ps.length < n ∧ q = recordOf succ n s ps := by
  constructor
  · rintro ⟨older, ps, s, heq, hord, h1, hlt, hlen, hlast, hbuf⟩
    refine ⟨older, ps, q.count, s, heq, hord, by omega, by omega, ?_⟩
    cases q
    simp only at hlen hlast hbuf
    simp only [recordOf, hlen, hlast, hbuf]
  · rintro ⟨older, ps, n, s, heq, hord, h1, hlt, rfl⟩
    exact ⟨older, ps, s, heq, hord, h1, hlt, rfl, rfl, rfl⟩

theorem iterate_of_pred (s : S) (n : Nat) (h : 1 ≤ n) : succ (succ^[n - 1] s) = succ^[n] s := by
  rw [← Function.iterate_succ_apply' succ, Nat.succ_eq_add_one, Nat.sub_add_cancel h]

/-- Continuing what records a run is being next in order after it. -/
theorem continues_recordOf_iff (n : Nat) (s : S) (ps : List (Piece S β)) (p : Piece S β)
    (h1 : 1 ≤ ps.length) (hord : InOrder succ n s ps) :
    Continues succ (recordOf succ n s ps) p ↔ InOrder succ n s (ps ++ [p]) := by
  rw [inOrder_append_singleton, Continues, recordOf, iterate_of_pred succ s ps.length h1]
  constructor
  · rintro ⟨hc, hi, hs⟩
    exact ⟨hord, hc.symm, hi, hs⟩
  · rintro ⟨_, hc, hi, hs⟩
    exact ⟨hc.symm, hi, hs⟩

/-- Extending what records a run records the longer run. -/
theorem extend_recordOf (n : Nat) (s : S) (ps : List (Piece S β)) (p : Piece S β)
    (hord : InOrder succ n s (ps ++ [p])) :
    (recordOf succ n s ps).extend p = recordOf succ n s (ps ++ [p]) := by
  rcases (inOrder_append_singleton succ n s ps p).mp hord with ⟨_, _, _, hs⟩
  simp only [Partial.extend, recordOf, join_append_singleton, List.length_append,
    List.length_singleton, Nat.add_sub_cancel, hs]

/-- A first piece is recorded as a run of one. -/
theorem start_eq_recordOf (n : Nat) (s : S) (p : Piece S β) (h : InOrder succ n s [p]) :
    start p = recordOf succ n s [p] := by
  rcases (inOrder_singleton succ n s p).mp h with ⟨rfl, _, rfl⟩
  simp only [start, recordOf, join, List.flatMap_singleton, List.length_singleton, Nat.sub_self,
    Function.iterate_zero, id_eq]

/-- Where a history with one more piece ends in a run, the run ends with that
    piece. -/
theorem eq_snoc_of_append_eq (h older ps : List (Piece S β)) (p : Piece S β)
    (heq : h ++ [p] = older ++ ps) (hne : 1 ≤ ps.length) :
    ∃ ps', ps = ps' ++ [p] ∧ h = older ++ ps' := by
  rcases List.eq_nil_or_concat ps with rfl | ⟨ps', p', rfl⟩
  · simp only [List.length_nil] at hne
    omega
  rw [List.concat_eq_append, ← List.append_assoc] at heq
  rcases List.append_inj' heq rfl with ⟨hh, hp⟩
  rw [List.concat_eq_append, ← hp]
  exact ⟨ps', rfl, hh⟩

/-- A history that has just got a piece ends in an open run exactly when the
    piece starts one or continues one without completing it. -/
theorem open_append_singleton (h : List (Piece S β)) (p : Piece S β) (q : Partial S β) :
    Open succ (h ++ [p]) q ↔
      (p.index = 0 ∧ 2 ≤ p.count ∧ q = start p) ∨
      ∃ q', Open succ h q' ∧ Continues succ q' p ∧ p.index + 1 < p.count ∧ q = q'.extend p := by
  rw [open_iff]
  constructor
  · rintro ⟨older, ps, n, s, heq, hord, h1, hlt, rfl⟩
    rcases eq_snoc_of_append_eq h older ps p heq h1 with ⟨ps', rfl, rfl⟩
    rw [List.length_append, List.length_singleton] at hlt
    rcases (inOrder_append_singleton succ n s ps' p).mp hord with ⟨hord', hc, hi, _⟩
    rcases Nat.eq_zero_or_pos ps'.length with hz | hpos
    · -- The run is this piece alone.
      left
      obtain rfl := List.length_eq_zero_iff.mp hz
      exact ⟨hi, by omega, (start_eq_recordOf succ n s p hord).symm⟩
    · -- The run without this piece was open before.
      right
      refine ⟨recordOf succ n s ps', (open_iff succ _ _).mpr
        ⟨older, ps', n, s, rfl, hord', hpos, by omega, rfl⟩, ?_, by omega, ?_⟩
      · exact (continues_recordOf_iff succ n s ps' p hpos hord').mpr hord
      · exact (extend_recordOf succ n s ps' p hord).symm
  · rintro (⟨hi, hc, rfl⟩ | ⟨q', hopen, hcont, hmore, rfl⟩)
    · have hord := (inOrder_singleton succ p.count p.seq p).mpr ⟨rfl, hi, rfl⟩
      exact ⟨h, [p], p.count, p.seq, rfl, hord, Nat.le_refl 1, hc,
        start_eq_recordOf succ p.count p.seq p hord⟩
    · rcases (open_iff succ h q').mp hopen with ⟨older, ps, n, s, rfl, hord, h1, hlt, rfl⟩
      have hord' := (continues_recordOf_iff succ n s ps p h1 hord).mp hcont
      rcases (inOrder_append_singleton succ n s ps p).mp hord' with ⟨_, hc, hi, _⟩
      refine ⟨older, ps ++ [p], n, s, List.append_assoc _ _ _, hord', ?_, ?_,
        extend_recordOf succ n s ps p hord'⟩
      · rw [List.length_append, List.length_singleton]
        omega
      · rw [List.length_append, List.length_singleton]
        omega

theorem not_open_nil (q : Partial S β) : ¬ Open succ [] q := by
  rw [open_iff]
  rintro ⟨older, ps, n, s, heq, _, h1, _, _⟩
  rw [(List.append_eq_nil_iff.mp heq.symm).2, List.length_nil] at h1
  omega

theorem Open.next_pos {succ : S → S} {h : List (Piece S β)} {q : Partial S β}
    (ho : Open succ h q) : 1 ≤ q.next := by
  rcases ho with ⟨_, _, _, _, _, h1, _⟩
  exact h1

/-- A history that has just got a piece ends in a complete message exactly
    when the piece is one, or completes an open run. -/
theorem whole_append_singleton (h : List (Piece S β)) (p : Piece S β) (w : List β) :
    Whole succ (h ++ [p]) w ↔
      (p.count = 1 ∧ w = p.body) ∨
      ∃ q, Open succ h q ∧ Continues succ q p ∧ p.index + 1 = p.count ∧ w = q.buf ++ p.body := by
  constructor
  · rintro ⟨older, ps, heq, rfl, ⟨p', rfl, hc⟩ | ⟨h2, s, hord⟩⟩
    · -- The piece is the whole message.
      left
      obtain rfl := List.singleton_inj.mp (List.append_inj' heq rfl).2
      exact ⟨hc, by rw [join, List.flatMap_singleton]⟩
    · -- The run without its last piece was open before.
      right
      rcases eq_snoc_of_append_eq h older ps p heq (by omega) with ⟨ps', rfl, rfl⟩
      rw [List.length_append, List.length_singleton] at h2 hord
      have h1 : 1 ≤ ps'.length := by omega
      rcases (inOrder_append_singleton succ _ s ps' p).mp hord with ⟨hord', hc, hi, _⟩
      refine ⟨recordOf succ (ps'.length + 1) s ps', (open_iff succ _ _).mpr
        ⟨older, ps', _, s, rfl, hord', h1, Nat.lt_succ_self _, rfl⟩, ?_, by omega,
        join_append_singleton ps' p⟩
      exact (continues_recordOf_iff succ _ s ps' p h1 hord').mpr hord
  · rintro (⟨hc, rfl⟩ | ⟨q, hopen, hcont, hfull, rfl⟩)
    · refine ⟨h, [p], rfl, ?_, Or.inl ⟨p, rfl, hc⟩⟩
      rw [join, List.flatMap_singleton]
    · rcases (open_iff succ h q).mp hopen with ⟨older, ps, n, s, rfl, hord, h1, hlt, rfl⟩
      have hord' := (continues_recordOf_iff succ n s ps p h1 hord).mp hcont
      rcases (inOrder_append_singleton succ n s ps p).mp hord' with ⟨_, hc, hi, _⟩
      have hn : (ps ++ [p]).length = n := by
        rw [List.length_append, List.length_singleton]
        omega
      refine ⟨older, ps ++ [p], List.append_assoc _ _ _, (join_append_singleton ps p).symm,
        Or.inr ⟨by omega, s, ?_⟩⟩
      rw [hn]
      exact hord'

section Receiver

variable [DecidableEq S]

theorem after_append_singleton (h : List (Piece S β)) (p : Piece S β) :
    after succ (h ++ [p]) = (feed succ (after succ h) p).1 := by
  simp only [after, List.foldl_append, List.foldl_cons, List.foldl_nil]

/-- A later piece with no message to continue gives up whatever there is. -/
theorem feed_broken (st : Option (Partial S β)) (p : Piece S β) (hc : p.count ≠ 1)
    (hi : p.index ≠ 0) (h : ¬ ∃ q, st = some q ∧ Continues succ q p) :
    feed succ st p = (none, none) := by
  unfold feed
  rw [if_neg hc, if_neg hi]
  cases st with
  | none => rfl
  | some q => exact if_neg (fun hcont => h ⟨q, rfl, hcont⟩)

/-- A later piece that continues the message completes it if it is the last. -/
theorem feed_continued (q : Partial S β) (p : Piece S β) (hc : p.count ≠ 1)
    (hi : p.index ≠ 0) (h : Continues succ q p) :
    feed succ (some q) p = if p.index + 1 = p.count then (none, some (q.buf ++ p.body))
      else (some (q.extend p), none) := by
  unfold feed
  rw [if_neg hc, if_neg hi]
  exact if_pos h

/-- When a piece leaves a message in progress: it starts one, or it continues
    one and is not the last. -/
theorem feed_fst_eq_some_iff (st : Option (Partial S β)) (p : Piece S β) (q : Partial S β) :
    (feed succ st p).1 = some q ↔ p.count ≠ 1 ∧
      ((p.index = 0 ∧ q = start p) ∨
        (p.index ≠ 0 ∧ ∃ q', st = some q' ∧ Continues succ q' p ∧ p.index + 1 ≠ p.count ∧
          q = q'.extend p)) := by
  -- The branches of `feed`: a lone piece, a first one, a later one.
  unfold feed
  by_cases hc : p.count = 1
  · simp only [hc, if_true, reduceCtorEq, ne_eq, not_true_eq_false, false_and]
  by_cases hi : p.index = 0
  · simp only [hc, hi, if_true, if_false, Option.some.injEq, ne_eq, not_false_eq_true, true_and,
      not_true_eq_false, false_and, or_false, eq_comm]
  simp only [hc, hi, if_false, ne_eq, not_false_eq_true, true_and, false_and, false_or]
  cases st with
  | none => simp only [reduceCtorEq, false_and, exists_false]
  | some q' =>
      by_cases hcont : Continues succ q' p
      · by_cases hl : p.index + 1 = p.count <;>
          simp [hcont, hl, eq_comm]
      · simp [hcont]

/-- When a piece delivers a message: it is the whole of one, or it continues
    the one in progress and is the last. -/
theorem feed_snd_eq_some_iff (st : Option (Partial S β)) (p : Piece S β) (w : List β) :
    (feed succ st p).2 = some w ↔
      (p.count = 1 ∧ w = p.body) ∨
        (p.count ≠ 1 ∧ p.index ≠ 0 ∧ ∃ q', st = some q' ∧ Continues succ q' p ∧
          p.index + 1 = p.count ∧ w = q'.buf ++ p.body) := by
  unfold feed
  by_cases hc : p.count = 1
  · simp only [hc, if_true, Option.some.injEq, true_and, ne_eq, not_true_eq_false, false_and,
      or_false, eq_comm]
  by_cases hi : p.index = 0
  · simp only [hc, hi, if_true, if_false, reduceCtorEq, false_and, ne_eq, not_true_eq_false,
      and_false, or_false]
  simp only [hc, hi, if_false, ne_eq, not_false_eq_true, true_and, false_and, false_or]
  cases st with
  | none => simp only [reduceCtorEq, false_and, exists_false]
  | some q' =>
      by_cases hcont : Continues succ q' p
      · by_cases hl : p.index + 1 = p.count <;>
          simp [hcont, hl, eq_comm]
      · simp [hcont]

/-- What is in progress after a history is the open run it ends in. -/
theorem after_eq_some_iff (h : List (Piece S β)) (hv : ∀ p ∈ h, p.Valid) (q : Partial S β) :
    after succ h = some q ↔ Open succ h q := by
  induction h using List.reverseRecOn generalizing q with
  | nil =>
      refine ⟨fun h => ?_, fun h => absurd h (not_open_nil succ q)⟩
      simp only [after, List.foldl_nil, reduceCtorEq] at h
  | append_singleton h p ih =>
      have hih := ih (fun r hr => hv r (List.mem_append_left _ hr))
      -- The piece that arrives decides; the history before it is the induction's.
      have hp := hv p (List.mem_append_right _ (List.mem_singleton_self p))
      rw [after_append_singleton, open_append_singleton, feed_fst_eq_some_iff]
      constructor
      · rintro ⟨hc, ⟨hi, hq⟩ | ⟨hi, q', hst, hcont, hmore, hq⟩⟩
        · exact Or.inl ⟨hi, (hp.resolve_left hc).2, hq⟩
        · have hlt := (hp.resolve_left hc).1
          exact Or.inr ⟨q', (hih q').mp hst, hcont, by omega, hq⟩
      · rintro (⟨hi, hc, hq⟩ | ⟨q', hopen, hcont, hmore, hq⟩)
        · exact ⟨by omega, Or.inl ⟨hi, hq⟩⟩
        · have hnext := hopen.next_pos
          have hidx := hcont.2.1
          exact ⟨by omega, Or.inr ⟨by omega, q', (hih q').mpr hopen, hcont, by omega, hq⟩⟩

/-- A piece delivers `w` exactly when the history with it ends in the complete
    message `w`. -/
theorem feed_delivers_iff (h : List (Piece S β)) (hv : ∀ p ∈ h, p.Valid) (p : Piece S β)
    (w : List β) : (feed succ (after succ h) p).2 = some w ↔ Whole succ (h ++ [p]) w := by
  rw [whole_append_singleton, feed_snd_eq_some_iff]
  constructor
  · rintro (hlone | ⟨_, _, q, hst, hlast⟩)
    · exact Or.inl hlone
    · exact Or.inr ⟨q, (after_eq_some_iff succ h hv q).mp hst, hlast⟩
  · rintro (hlone | ⟨q, hopen, hcont, hlast⟩)
    · exact Or.inl hlone
    · have hnext := hopen.next_pos
      have hidx := hcont.2.1
      exact Or.inr ⟨by omega, by omega, q, (after_eq_some_iff succ h hv q).mpr hopen, hcont,
        hlast⟩

end Receiver

section Sender

/-- The pieces of one message: in index order, each with the right count. -/
def Group (g : List (Piece S β)) : Prop :=
  g ≠ [] ∧ ∀ (i : Nat) (p : Piece S β), g[i]? = some p → p.index = i ∧ p.count = g.length

/-- Where messages are sent one after the other, a stretch of the stream that
    begins with a first piece and has as many pieces as that piece says is one
    whole message. -/
theorem group_of_stretch (groups : List (List (Piece S β))) (hg : ∀ g ∈ groups, Group g)
    (before seg rest : List (Piece S β)) (hsplit : groups.flatten = before ++ seg ++ rest)
    (p : Piece S β) (hhead : seg.head? = some p) (hindex : p.index = 0)
    (hcount : p.count = seg.length) : seg ∈ groups := by
  induction groups generalizing before with
  | nil =>
      have hnil : seg = [] := by
        have h := hsplit.symm
        simp only [List.flatten_nil, List.append_eq_nil_iff] at h
        exact h.1.2
      rw [hnil] at hhead
      simp only [List.head?_nil, reduceCtorEq] at hhead
  | cons g groups ih =>
      have hgg := hg g List.mem_cons_self
      rw [List.flatten_cons, List.append_assoc] at hsplit
      have hseg0 : seg[0]? = some p := by
        rw [← List.head?_eq_getElem?]
        exact hhead
      -- Where the first piece of the stretch stands in the stream.
      have hat : (g ++ groups.flatten)[before.length]? = some p := by
        rw [hsplit, List.getElem?_append_right (Nat.le_refl _), Nat.sub_self,
          List.getElem?_append_left (List.getElem?_eq_some_iff.mp hseg0).1, hseg0]
      rcases Nat.lt_or_ge before.length g.length with hlt | hge
      · -- The stretch starts inside `g`; only its first piece has index 0.
        rw [List.getElem?_append_left hlt] at hat
        have hp := hgg.2 _ p hat
        have hz : before = [] := List.length_eq_zero_iff.mp (by omega)
        rw [hz, List.nil_append] at hsplit
        have hlen : g.length = seg.length := by omega
        rw [(List.append_inj hsplit hlen).1]
        exact List.mem_cons_self
      · -- The stretch starts after `g`.
        have hpre : before = g ++ before.drop g.length := by
          have ht := congrArg (List.take g.length) hsplit
          rw [List.take_append_of_le_length (Nat.le_refl _), List.take_length,
            List.take_append_of_le_length hge] at ht
          conv_lhs => rw [← List.take_append_drop g.length before, ← ht]
        rw [hpre, List.append_assoc, List.append_right_inj, ← List.append_assoc] at hsplit
        exact List.mem_cons_of_mem _
          (ih (fun k hk => hg k (List.mem_cons_of_mem _ hk)) _ hsplit)

end Sender

end Reassembly

end ShredStream
