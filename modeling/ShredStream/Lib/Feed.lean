import ShredStream.Lib.BoundedFifo
import ShredStream.Lib.Machine

/-!
# Feeds

What a client that delivers a stream is for, without threads, sockets, wakers
or connections: a source puts elements into a line, and a user takes them out
at the other end. The line is bounded, and a full line loses its oldest
element. The source may finish, or fail with an error. A user who finds the
line empty is told so; a user who asks for more is told the error, once, or
that the feed is over, but only when the line is empty.

Every operation is one step here, whoever calls it. What can be seen of a feed
is a list of events, and `Contract` is what the user may rely on: every element
is taken or lost once, in order; nobody is told that there is nothing while
there is something; and after the end there is nothing.

## Main definitions

* `State`, `Op`, `Event`: A feed, what is done to it, and what is seen.
* `feed`: The machine.
* `Contract`: What the user may rely on.

## Theorems

* `contract_append`: When the contract survives what is seen next.
* `kept_step`: One operation keeps the account and the contract.
* `put_take`: An element that passes through an empty line.
* `contract_run`: Every run keeps the contract.
-/

namespace ShredStream

namespace Feed

open BoundedFifo

variable {α ε : Type}

/-- How the source stands: it puts, it has failed with an error that was not
    told yet, or it puts no more. -/
inductive Phase (ε : Type) where
  | flowing
  | failed (e : ε)
  | ended

/-- The line between a source and a user. -/
structure State (α ε : Type) where
  capacity : Nat
  line : List α
  phase : Phase ε

/-- What the source and the user do. -/
inductive Op (α ε : Type) where
  | put (x : α)
  | fail (e : ε)
  | finish
  | take
  | look
  | ask

/-- What can be seen. -/
inductive Event (α ε : Type) where
  | put (x : α)
  | lost (x : α)
  | got (x : α)
  | nothing
  | failed (e : ε)
  | ended

/-- A feed that nothing has been put into. -/
def new (capacity : Nat) : State α ε := ⟨capacity, [], .flowing⟩

/-- The feed driven from outside. -/
def feed : Machine (State α ε) (Op α ε) (Event α ε) where
  step s
    | .put x => match s.phase with
      | .flowing =>
        let r := forcePush s.capacity s.line x
        some ({ s with line := r.1 }, .put x :: r.2.toList.map Event.lost)
      | _ => none
    | .fail e => match s.phase with
      | .flowing => some ({ s with phase := .failed e }, [])
      | _ => none
    | .finish => some ({ s with phase := .ended }, [])
    | .take => match s.line with
      | x :: rest => some ({ s with line := rest }, [.got x])
      | [] => none
    | .look => match s.line with
      | _ :: _ => none
      | [] => some (s, [.nothing])
    | .ask => match s.line, s.phase with
      | [], .failed e => some ({ s with phase := .ended }, [.failed e])
      | [], .ended => some (s, [.ended])
      | _, _ => none

def putOf (es : List (Event α ε)) : List α := es.filterMap (fun | .put x => some x | _ => none)

def lostOf (es : List (Event α ε)) : List α := es.filterMap (fun | .lost x => some x | _ => none)

def gotOf (es : List (Event α ε)) : List α := es.filterMap (fun | .got x => some x | _ => none)

/-- The user is told that there is nothing, now or for good. -/
def Event.Empty : Event α ε → Prop
  | .nothing | .failed _ | .ended => True
  | _ => False

/-- The user is told that there will be nothing. -/
def Event.Final : Event α ε → Prop
  | .failed _ | .ended => True
  | _ => False

/-- What the user of a feed may rely on. -/
structure Contract (es : List (Event α ε)) : Prop where
  /-- What was put is taken or lost, once and in order, or still in line. -/
  account : ∃ line, Ledger (putOf es) (gotOf es) (lostOf es) line
  /-- Nothing is in line when the user is told so. -/
  empty : ∀ as e bs, es = as ++ e :: bs → e.Empty → Ledger (putOf as) (gotOf as) (lostOf as) []
  /-- The error is told once, and after the end there is nothing. -/
  final : ∀ as e bs, es = as ++ e :: bs → e.Final → ∀ x ∈ bs, x = .nothing ∨ x = .ended

@[simp] theorem putOf_append (es new : List (Event α ε)) :
    putOf (es ++ new) = putOf es ++ putOf new := List.filterMap_append

@[simp] theorem lostOf_append (es new : List (Event α ε)) :
    lostOf (es ++ new) = lostOf es ++ lostOf new := List.filterMap_append

@[simp] theorem gotOf_append (es new : List (Event α ε)) :
    gotOf (es ++ new) = gotOf es ++ gotOf new := List.filterMap_append

/-- What is seen of a feed, against how it stands. -/
structure Kept (s : State α ε) (es : List (Event α ε)) : Prop where
  account : Ledger (putOf es) (gotOf es) (lostOf es) s.line
  ended : (∃ e ∈ es, e.Final) → s.phase = .ended ∧ s.line = []
  contract : Contract es

theorem empty_of_final (e : Event α ε) (h : e.Final) : e.Empty := by
  cases e with
  | failed e | ended => trivial
  | put x | lost x | got x | nothing => exact h.elim

/-- An element of a list with something behind it is an element of the one or
    of the other part. -/
theorem append_eq_cases {β : Type} (es new as bs : List β) (e : β)
    (h : es ++ new = as ++ e :: bs) :
    (∃ cs, es = as ++ e :: cs ∧ bs = cs ++ new) ∨ ∃ cs, as = es ++ cs ∧ new = cs ++ e :: bs := by
  rcases List.append_eq_append_iff.mp h with ⟨cs, has, hnew⟩ | ⟨cs, hes, hrest⟩
  · exact Or.inr ⟨cs, has, hnew⟩
  · rcases cs with _ | ⟨c, cs⟩
    · rw [List.append_nil] at hes
      exact Or.inr ⟨[], by rw [hes, List.append_nil], hrest.symm⟩
    · rw [List.cons_append, List.cons.injEq] at hrest
      rcases hrest with ⟨rfl, rfl⟩
      exact Or.inl ⟨cs, hes, rfl⟩

/-- The contract survives what is seen next, if nobody is told that there is
    nothing before the line is empty, and after the end nothing else is seen. -/
theorem contract_append (es new : List (Event α ε)) (h : Contract es)
    (haccount : ∃ line, Ledger (putOf (es ++ new)) (gotOf (es ++ new)) (lostOf (es ++ new)) line)
    (hempty : ∀ e ∈ new, e.Empty → new = [e] ∧ Ledger (putOf es) (gotOf es) (lostOf es) [])
    (hfinal : (∃ e ∈ es, e.Final) → ∀ x ∈ new, x = .nothing ∨ x = .ended) :
    Contract (es ++ new) := by
  -- What tells of the end stands alone among what is new.
  have halone : ∀ cs e bs, new = cs ++ e :: bs → e.Empty →
      cs = [] ∧ bs = [] ∧ Ledger (putOf es) (gotOf es) (lostOf es) [] := by
    intro cs e bs hnew he
    have hmem : e ∈ new := by
      rw [hnew]
      exact List.mem_append_right cs List.mem_cons_self
    rcases hempty e hmem he with ⟨hone, hledger⟩
    rw [hnew, List.append_eq_singleton_iff] at hone
    rcases hone with ⟨hcs, htail⟩ | ⟨_, htail⟩
    · exact ⟨hcs, (List.cons.inj htail).2, hledger⟩
    · cases htail
  refine ⟨haccount, ?_, ?_⟩
  · intro as e bs hsplit he
    rcases append_eq_cases es new as bs e hsplit with ⟨cs, hes, _⟩ | ⟨cs, rfl, hnew⟩
    · exact h.empty as e cs hes he
    · rcases halone cs e bs hnew he with ⟨rfl, _, hledger⟩
      rwa [List.append_nil]
  · intro as e bs hsplit he
    rcases append_eq_cases es new as bs e hsplit with ⟨cs, hes, rfl⟩ | ⟨cs, rfl, hnew⟩
    · intro x hx
      rcases List.mem_append.mp hx with hx | hx
      · exact h.final as e cs hes he x hx
      · have hmem : e ∈ es := by
          rw [hes]
          exact List.mem_append_right as List.mem_cons_self
        exact hfinal ⟨e, hmem, he⟩ x hx
    · rcases halone cs e bs hnew (empty_of_final e he) with ⟨_, rfl, _⟩
      intro x hx
      exact absurd hx List.not_mem_nil

/-- An operation that shows nothing. -/
theorem kept_silent (s t : State α ε) (es : List (Event α ε)) (h : Kept s es)
    (hline : t.line = s.line) (hphase : s.phase = .ended → t.phase = .ended) :
    Kept t (es ++ []) := by
  rw [List.append_nil]
  refine ⟨?_, fun hf => ?_, h.contract⟩
  · rw [hline]
    exact h.account
  · rw [hline]
    exact ⟨hphase (h.ended hf).1, (h.ended hf).2⟩

/-- The user is told that there is nothing: the line is empty. -/
theorem kept_told (s : State α ε) (t : State α ε) (es : List (Event α ε)) (e : Event α ε)
    (h : Kept s es) (hline : s.line = []) (htline : t.line = [])
    (htold : putOf [e] = [] ∧ gotOf [e] = [] ∧ lostOf [e] = [])
    (hagain : s.phase = .ended → (e = .nothing ∨ e = .ended) ∧ t.phase = .ended)
    (hover : e.Final → t.phase = .ended) : Kept t (es ++ [e]) := by
  have hacc := h.account
  rw [hline] at hacc
  have hledger : Ledger (putOf (es ++ [e])) (gotOf (es ++ [e])) (lostOf (es ++ [e])) [] := by
    simpa only [putOf_append, gotOf_append, lostOf_append, htold.1, htold.2.1, htold.2.2,
      List.append_nil] using hacc
  refine ⟨by rwa [htline], fun hf => ⟨?_, htline⟩, ?_⟩
  · rcases hf with ⟨x, hx, hfinal⟩
    rcases List.mem_append.mp hx with hx | hx
    · exact (hagain (h.ended ⟨x, hx, hfinal⟩).1).2
    · rw [List.mem_singleton.mp hx] at hfinal
      exact hover hfinal
  · refine contract_append es [e] h.contract ⟨[], hledger⟩ (fun x hx _ => ?_) (fun hf x hx => ?_)
    · rw [List.mem_singleton.mp hx]
      exact ⟨rfl, hacc⟩
    · rw [List.mem_singleton.mp hx]
      exact (hagain (h.ended hf).1).1

/-- Something is put into the line or taken out: the end was not told. -/
theorem kept_moved (s t : State α ε) (es new : List (Event α ε)) (h : Kept s es)
    (hopen : s.phase ≠ .ended ∨ s.line ≠ []) (hnew : ∀ e ∈ new, ¬ e.Empty)
    (hledger : Ledger (putOf (es ++ new)) (gotOf (es ++ new)) (lostOf (es ++ new)) t.line) :
    Kept t (es ++ new) := by
  have hnot : ¬ ∃ e ∈ es, e.Final := by
    intro hf
    rcases hopen with hphase | hline
    · exact hphase (h.ended hf).1
    · exact hline (h.ended hf).2
  refine ⟨hledger, fun hf => ?_, ?_⟩
  · rcases hf with ⟨e, he, hfinal⟩
    rcases List.mem_append.mp he with he | he
    · exact absurd ⟨e, he, hfinal⟩ hnot
    · exact absurd (empty_of_final e hfinal) (hnew e he)
  · exact contract_append es new h.contract ⟨_, hledger⟩
      (fun e he hempty => absurd hempty (hnew e he)) (fun hf => absurd hf hnot)

/-- One operation keeps the account and the contract. -/
theorem kept_step (s : State α ε) (es : List (Event α ε)) (op : Op α ε) (t : State α ε)
    (new : List (Event α ε)) (h : Kept s es) (hstep : feed.step s op = some (t, new)) :
    Kept t (es ++ new) := by
  rcases s with ⟨capacity, line, phase⟩
  cases op with
  | put x =>
      rcases phase with _ | e | _ <;> simp only [feed, reduceCtorEq] at hstep
      cases hstep
      have hl := ledger_forcePush capacity _ _ _ _ x h.account
      refine kept_moved _ _ es _ h (Or.inl (by simp only [ne_eq, reduceCtorEq, not_false_eq_true]))
        (fun e he => ?_) ?_
      · -- One was put, and one may be lost.
        rcases List.mem_cons.mp he with rfl | he
        · exact not_false
        · rcases List.mem_map.mp he with ⟨y, _, rfl⟩
          exact not_false
      · rw [putOf_append, gotOf_append, lostOf_append]
        rw [← List.append_nil (gotOf es)] at hl
        rcases hf : forcePush capacity line x with ⟨queue, _ | y⟩ <;>
        · rw [hf] at hl
          exact hl
  | fail e =>
      rcases phase with _ | e' | _ <;> simp only [feed, reduceCtorEq] at hstep
      cases hstep
      exact kept_silent _ _ es h rfl (fun hp => by cases hp)
  | finish =>
      cases hstep
      exact kept_silent _ _ es h rfl (fun _ => rfl)
  | take =>
      rcases line with _ | ⟨x, rest⟩ <;> simp only [feed, reduceCtorEq] at hstep
      cases hstep
      refine kept_moved _ _ es _ h (Or.inr (List.cons_ne_nil x rest)) (fun e he => ?_) ?_
      · rw [List.mem_singleton.mp he]
        exact not_false
      · have hl := ledger_pop _ _ _ _ h.account
        rw [← List.append_nil (putOf es), ← List.append_nil (lostOf es)] at hl
        rw [putOf_append, gotOf_append, lostOf_append]
        exact hl
  | look =>
      rcases line with _ | ⟨x, rest⟩ <;> simp only [feed, reduceCtorEq] at hstep
      cases hstep
      exact kept_told _ _ es .nothing h rfl rfl ⟨rfl, rfl, rfl⟩ (fun hp => ⟨Or.inl rfl, hp⟩)
        (fun hf => hf.elim)
  | ask =>
      rcases line with _ | ⟨x, rest⟩ <;> rcases phase with _ | e | _ <;>
        simp only [feed, reduceCtorEq] at hstep <;> cases hstep
      · exact kept_told _ _ es (.failed e) h rfl rfl ⟨rfl, rfl, rfl⟩ (fun hp => by cases hp)
          (fun _ => rfl)
      · exact kept_told _ _ es .ended h rfl rfl ⟨rfl, rfl, rfl⟩ (fun _ => ⟨Or.inr rfl, rfl⟩)
          (fun _ => rfl)

/-- An element that is put into an empty line and taken at once. -/
theorem put_take (capacity : Nat) (hcap : 1 ≤ capacity) (x : α) :
    feed.run (new capacity : State α ε) [.put x, .take]
      = some (new capacity, [.put x, .got x]) := by
  have hroom : forcePush capacity [] x = ([x], none) := if_pos hcap
  have hput : feed.step (new capacity : State α ε) (.put x)
      = some (⟨capacity, [x], .flowing⟩, [.put x]) := by
    simp only [feed, new, hroom, Option.toList_none, List.map_nil]
  rw [Machine.run_cons_of_step feed _ _ _ _ _ hput,
    Machine.run_singleton feed _ (new capacity) .take [.got x] rfl]
  rfl

theorem kept_new (capacity : Nat) : Kept (new capacity : State α ε) [] := by
  refine ⟨ledger_nil, fun hf => hf.elim (fun _ he => absurd he.1 List.not_mem_nil),
    ⟨[], ledger_nil⟩, ?_, ?_⟩ <;>
  · intro as e bs hsplit
    exact absurd hsplit.symm (List.append_ne_nil_of_right_ne_nil as (List.cons_ne_nil e bs))

/-- Every run keeps the contract. -/
theorem contract_run (capacity : Nat) (ops : List (Op α ε)) (t : State α ε)
    (es : List (Event α ε)) (h : feed.run (new capacity) ops = some (t, es)) : Contract es :=
  (Machine.run_invariant feed (fun _ s es => Kept s es)
    (fun _ s es op s' new hk hs => kept_step s es op s' new hk hs) ops [] _ t [] es
    (kept_new capacity) h).contract

end Feed

end ShredStream
