import Mathlib.Data.List.Basic

/-!
# Reading at an Offset

Parsers that keep the whole buffer and thread an offset by hand, as
hand-written binary decoders do, in place of parsers that consume a list.

`At buf o w` says that the bytes `w` stand in `buf` at offset `o`. Everything
else is stated with it. A grammar relates a value to the ways it may be
written; a reader is complete for a grammar when it reads back every written
form wherever it stands, and sound when whatever it accepts stands in the
buffer. Both compose along `at_append`, which splits a window in two and moves
the offset past the first half — the step every offset update in a decoder
makes.

A reader that is both cannot be fooled by what surrounds the value:
`read_extend` says that more bytes after it change nothing, `read_prefix` that
none have to follow, and `read_cut` that a buffer cut inside it is refused.

`readMany` repeats a reader a given number of times, the shape of a counted
loop, and inherits both properties.

## Main definitions

* `At`: A window stands in a buffer at an offset.
* `Reader`: A function from a buffer and an offset to a value and the offset
  past it.
* `Complete`, `Sound`: A reader against a grammar.
* `Many`: The written forms of a list, one after the other.
* `readMany`: A counted loop of one reader.

## Theorems

* `at_append`: A window of two parts is two adjacent windows.
* `at_window`: Any range inside the buffer is a window.
* `at_flatMap`: Records of one width stand at multiples of it.
* `readMany_complete`, `readMany_sound`: Loops inherit both properties.
* `read_extend`: Bytes after the value do not matter.
* `read_prefix`: The bytes up to its end are enough.
* `read_cut`: A cut inside the value is refused.
-/

namespace ShredStream

namespace Cursor

variable {β ε α : Type}

/-- The bytes `w` stand in `buf` at offset `o`. -/
def At (buf : List β) (o : Nat) (w : List β) : Prop :=
  ∃ pre suf, buf = pre ++ w ++ suf ∧ pre.length = o

/-- A reader takes the buffer and an offset; it returns a value and the
    offset past it. -/
abbrev Reader (β ε α : Type) := List β → Nat → Except ε (α × Nat)

theorem at_zero (w rest : List β) : At (w ++ rest) 0 w :=
  ⟨[], rest, rfl, rfl⟩

theorem at_length (buf w : List β) (o : Nat) (h : At buf o w) : o + w.length ≤ buf.length := by
  rcases h with ⟨pre, suf, rfl, rfl⟩
  simp only [List.length_append]
  omega

theorem at_extend (buf w rest : List β) (o : Nat) (h : At buf o w) : At (buf ++ rest) o w := by
  rcases h with ⟨pre, suf, rfl, hlen⟩
  exact ⟨pre, suf ++ rest, by simp only [List.append_assoc], hlen⟩

/-- A window is what taking its length at its offset gives. -/
theorem at_slice (buf w : List β) (o : Nat) (h : At buf o w) :
    (buf.drop o).take w.length = w := by
  rcases h with ⟨pre, suf, rfl, rfl⟩
  rw [List.append_assoc, List.drop_left, List.take_left]

/-- Any range inside the buffer is a window. -/
theorem at_window (buf : List β) (o n : Nat) (h : o + n ≤ buf.length) :
    At buf o ((buf.drop o).take n) := by
  refine ⟨buf.take o, buf.drop (o + n), ?_, ?_⟩
  · rw [List.append_assoc, ← List.drop_drop, List.take_append_drop, List.take_append_drop]
  · rw [List.length_take]
    omega

theorem length_window (buf : List β) (o n : Nat) (h : o + n ≤ buf.length) :
    ((buf.drop o).take n).length = n := by
  rw [List.length_take, List.length_drop]
  omega

/-- A window of two parts is two adjacent windows. -/
theorem at_append (buf x y : List β) (o : Nat) :
    At buf o (x ++ y) ↔ At buf o x ∧ At buf (o + x.length) y := by
  constructor
  · rintro ⟨pre, suf, rfl, rfl⟩
    refine ⟨⟨pre, y ++ suf, by simp only [List.append_assoc], rfl⟩,
      ⟨pre ++ x, suf, by simp only [List.append_assoc], ?_⟩⟩
    rw [List.length_append]
  · rintro ⟨⟨pre, suf, hbuf, hpre⟩, ⟨pre', suf', hbuf', hpre'⟩⟩
    -- Both prefixes end where `x` ends, so they are the same list.
    have hlen : (pre ++ x).length = pre'.length := by
      rw [List.length_append, hpre, hpre']
    have heq : (pre ++ x) ++ suf = pre' ++ (y ++ suf') := by
      rw [← hbuf, hbuf', List.append_assoc]
    have hsplit := List.append_inj heq hlen
    refine ⟨pre, suf', ?_, hpre⟩
    rw [hbuf, hsplit.2]
    simp only [List.append_assoc]

theorem at_cons (buf : List β) (b : β) (w : List β) (o : Nat) :
    At buf o (b :: w) ↔ At buf o [b] ∧ At buf (o + 1) w := by
  have h := at_append buf [b] w o
  simpa only [List.singleton_append, List.length_singleton] using h

/-- One byte stands at an offset exactly when the buffer holds it there. -/
theorem at_singleton (buf : List β) (b : β) (o : Nat) : At buf o [b] ↔ buf[o]? = some b := by
  constructor
  · rintro ⟨pre, suf, rfl, rfl⟩
    rw [List.append_assoc, List.getElem?_append_right (Nat.le_refl _), Nat.sub_self]
    rfl
  · intro h
    rcases List.getElem?_eq_some_iff.mp h with ⟨hlt, hget⟩
    have hw := at_window buf o 1 (by omega)
    rwa [List.drop_eq_getElem_cons hlt, hget, List.take_succ_cons, List.take_zero] at hw

/-- The empty window stands at every offset inside the buffer. -/
theorem at_nil (buf : List β) (o : Nat) (h : o ≤ buf.length) : At buf o [] := by
  have hw := at_window buf o 0 (by omega)
  rwa [List.take_zero] at hw

/-- The `i`-th of many records of one width. -/
theorem at_flatMap (f : α → List β) (k : Nat) (buf : List β) (as : List α)
    (hk : ∀ a ∈ as, (f a).length = k) : ∀ (o i : Nat) (a : α), At buf o (as.flatMap f) →
      as[i]? = some a → At buf (o + k * i) (f a) := by
  induction as with
  | nil =>
      intro o i a _ hi
      simp only [List.getElem?_nil, reduceCtorEq] at hi
  | cons b bs ih =>
      intro o i a hat hi
      rw [List.flatMap_cons, at_append] at hat
      rcases i with _ | i
      · rw [List.getElem?_cons_zero, Option.some.injEq] at hi
        subst hi
        exact hat.1
      · rw [List.getElem?_cons_succ] at hi
        rw [hk b List.mem_cons_self] at hat
        have h := ih (fun c hc => hk c (List.mem_cons_of_mem b hc)) (o + k) i a hat.2 hi
        rwa [Nat.mul_succ, Nat.add_comm (k * i), ← Nat.add_assoc]

/-- Records of one width that stand at multiples of it stand one after the
    other. -/
theorem at_flatMap_of (f : α → List β) (k : Nat) (buf : List β) (as : List α)
    (hk : ∀ a ∈ as, (f a).length = k) : ∀ o, o ≤ buf.length →
      (∀ (i : Nat) (a : α), as[i]? = some a → At buf (o + k * i) (f a)) →
        At buf o (as.flatMap f) := by
  induction as with
  | nil =>
      intro o ho _
      exact at_nil buf o ho
  | cons b bs ih =>
      intro o ho h
      have hb := h 0 b rfl
      rw [Nat.mul_zero, Nat.add_zero] at hb
      have hlen := at_length buf (f b) o hb
      rw [List.flatMap_cons, at_append]
      refine ⟨hb, ?_⟩
      rw [hk b List.mem_cons_self] at hlen ⊢
      refine ih (fun c hc => hk c (List.mem_cons_of_mem b hc)) (o + k) hlen (fun i a hi => ?_)
      have ha := h (i + 1) a hi
      rwa [Nat.mul_succ, Nat.add_comm (k * i), ← Nat.add_assoc] at ha

/-- A buffer is what stands at its start and the rest. -/
theorem at_front (buf w : List β) (h : At buf 0 w) : buf = w ++ buf.drop w.length := by
  rcases h with ⟨pre, suf, rfl, hlen⟩
  rw [List.length_eq_zero_iff.mp hlen, List.nil_append, List.drop_left]

/-- Records of one width are as long as their number says. -/
theorem length_flatMap_width (f : α → List β) (k : Nat) (as : List α)
    (hk : ∀ a ∈ as, (f a).length = k) : (as.flatMap f).length = k * as.length := by
  induction as with
  | nil => rfl
  | cons b bs ih =>
      rw [List.flatMap_cons, List.length_append, hk b List.mem_cons_self,
        ih (fun c hc => hk c (List.mem_cons_of_mem b hc)), List.length_cons, Nat.mul_succ,
        Nat.add_comm]

/-- What stands in a buffer cut at `n` stands in the whole buffer. -/
theorem at_of_take (buf w : List β) (o n : Nat) (h : At (buf.take n) o w) : At buf o w := by
  have hext := at_extend (buf.take n) w (buf.drop n) o h
  rwa [List.take_append_drop] at hext

/-- A window is still there when the buffer is cut right behind it. -/
theorem at_cut (buf w : List β) (o : Nat) (h : At buf o w) : At (buf.take (o + w.length)) o w := by
  rcases h with ⟨pre, suf, rfl, rfl⟩
  refine ⟨pre, [], ?_, rfl⟩
  rw [← List.length_append, List.take_left', List.append_nil]
  rfl

/-- A window of the buffer is one of what is left behind an earlier offset. -/
theorem at_drop (buf w : List β) (o : Nat) (h : o ≤ buf.length) :
    At (buf.drop o) 0 w ↔ At buf o w := by
  constructor
  · rintro ⟨pre, suf, hbuf, hpre⟩
    rw [List.length_eq_zero_iff.mp hpre, List.nil_append] at hbuf
    refine ⟨buf.take o, suf, ?_, List.length_take_of_le h⟩
    rw [List.append_assoc, ← hbuf, List.take_append_drop]
  · rintro ⟨pre, suf, rfl, rfl⟩
    rw [List.append_assoc, List.drop_left]
    exact at_zero w suf

/-- The reader reads back every form the grammar allows, wherever it
    stands. -/
def Complete (G : α → List β → Prop) (r : Reader β ε α) : Prop :=
  ∀ buf o a w, G a w → At buf o w → r buf o = .ok (a, o + w.length)

/-- Whatever the reader accepts stands in the buffer. -/
def Sound (G : α → List β → Prop) (r : Reader β ε α) : Prop :=
  ∀ buf o a o', r buf o = .ok (a, o') → ∃ w, G a w ∧ At buf o w ∧ o' = o + w.length

/-- The written forms of a list: those of its elements, one after the
    other. -/
inductive Many (G : α → List β → Prop) : List α → List β → Prop
  | nil : Many G [] []
  | cons (a : α) (as : List α) (w ws : List β) :
      G a w → Many G as ws → Many G (a :: as) (w ++ ws)

/-- A list written element by element with one function. -/
theorem many_flatMap (G : α → List β → Prop) (enc : α → List β) (as : List α)
    (h : ∀ a ∈ as, G a (enc a)) : Many G as (as.flatMap enc) := by
  induction as with
  | nil => exact Many.nil
  | cons a as ih =>
      rw [List.flatMap_cons]
      refine Many.cons a as _ _ (h a List.mem_cons_self) (ih ?_)
      intro b hb
      exact h b (List.mem_cons_of_mem a hb)

/-- A loop of `n` rounds of one reader, each starting where the last one
    stopped. -/
def readMany (r : Reader β ε α) : Nat → Reader β ε (List α)
  | 0, _, o => .ok ([], o)
  | n + 1, buf, o => match r buf o with
    | .error e => .error e
    | .ok (a, o') => match readMany r n buf o' with
      | .error e => .error e
      | .ok (as, o'') => .ok (a :: as, o'')

/-- A loop over as many rounds as there are elements reads them all back. -/
theorem readMany_complete (G : α → List β → Prop) (r : Reader β ε α) (hr : Complete G r)
    (buf : List β) (as : List α) (w : List β) (h : Many G as w) :
    ∀ o, At buf o w → readMany r as.length buf o = .ok (as, o + w.length) := by
  induction h with
  | nil =>
      intro o _
      rfl
  | cons a as w ws ha _ ih =>
      intro o hat
      rcases (at_append buf w ws o).mp hat with ⟨hw, hws⟩
      have hhead := hr buf o a w ha hw
      have htail := ih (o + w.length) hws
      simp only [List.length_cons, readMany, hhead, htail, List.length_append, Nat.add_assoc]

/-- Whatever a loop accepts stands in the buffer, one element after the
    other. A loop of no rounds reads nothing, so its offset has to be inside
    the buffer to begin with. -/
theorem readMany_sound (G : α → List β → Prop) (r : Reader β ε α) (hr : Sound G r)
    (buf : List β) (n : Nat) : ∀ (o : Nat) (as : List α) (o' : Nat), o ≤ buf.length →
    readMany r n buf o = .ok (as, o') →
      as.length = n ∧ ∃ w, Many G as w ∧ At buf o w ∧ o' = o + w.length := by
  induction n with
  | zero =>
      intro o as o' ho h
      simp only [readMany, Except.ok.injEq, Prod.mk.injEq] at h
      rcases h with ⟨rfl, rfl⟩
      exact ⟨rfl, [], Many.nil, at_nil buf o ho, rfl⟩
  | succ n ih =>
      intro o as o' ho h
      rcases hhead : r buf o with e | ⟨a, m⟩
      · simp only [readMany, hhead, reduceCtorEq] at h
      rcases htail : readMany r n buf m with e | ⟨bs, m'⟩
      · simp only [readMany, hhead, htail, reduceCtorEq] at h
      simp only [readMany, hhead, htail, Except.ok.injEq, Prod.mk.injEq] at h
      rcases h with ⟨rfl, rfl⟩
      rcases hr buf o a m hhead with ⟨w, hG, hat, rfl⟩
      -- The first element ends inside the buffer, which the rest of the loop needs.
      have hinside := at_length buf w o hat
      rcases ih (o + w.length) bs m' hinside htail with ⟨hlen, ws, hM, hat', rfl⟩
      refine ⟨by rw [List.length_cons, hlen], w ++ ws, Many.cons a bs w ws hG hM,
        (at_append buf w ws o).mpr ⟨hat, hat'⟩, ?_⟩
      rw [List.length_append, Nat.add_assoc]

/-- More bytes after the value change nothing. -/
theorem read_extend (G : α → List β → Prop) (r : Reader β ε α) (hc : Complete G r)
    (hs : Sound G r) (buf rest : List β) (o o' : Nat) (a : α) (h : r buf o = .ok (a, o')) :
    r (buf ++ rest) o = .ok (a, o') := by
  rcases hs buf o a o' h with ⟨w, hG, hat, rfl⟩
  exact hc (buf ++ rest) o a w hG (at_extend buf w rest o hat)

/-- The bytes up to where the reader stops are all it needs. -/
theorem read_prefix (G : α → List β → Prop) (r : Reader β ε α) (hc : Complete G r)
    (hs : Sound G r) (buf : List β) (o o' : Nat) (a : α) (h : r buf o = .ok (a, o')) :
    r (buf.take o') o = .ok (a, o') := by
  rcases hs buf o a o' h with ⟨w, hG, hat, rfl⟩
  exact hc (buf.take (o + w.length)) o a w hG (at_cut buf w o hat)

/-- A buffer cut inside the value is refused. -/
theorem read_cut (G : α → List β → Prop) (r : Reader β ε α) (hc : Complete G r)
    (hs : Sound G r) (buf : List β) (o o' j : Nat) (a : α) (h : r buf o = .ok (a, o'))
    (hj : j < o') : ∃ e, r (buf.take j) o = .error e := by
  rcases hcut : r (buf.take j) o with e | ⟨b, m⟩
  · exact ⟨e, rfl⟩
  · exfalso
    rcases hs (buf.take j) o b m hcut with ⟨w, hG, hat, rfl⟩
    -- The full buffer would give the same value, which ends past the cut.
    have hfull := hc buf o b w hG (at_of_take buf w o j hat)
    rw [h, Except.ok.injEq, Prod.mk.injEq] at hfull
    have hinside := at_length (buf.take j) w o hat
    rw [List.length_take] at hinside
    omega

end Cursor

end ShredStream
