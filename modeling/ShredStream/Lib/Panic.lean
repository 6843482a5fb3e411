import Mathlib.Algebra.Group.Nat.Defs
import ShredStream.Lib.Cursor

/-!
# Panicking Computations

Computations that may panic, as they run on a 64-bit target with overflow
checks on: sums, products and differences that leave the width, shifts by the
width or more, indices and slices out of range, conversions unwrapped when
they fail, copies between slices of different lengths, and vectors asked to
hold more than an allocation can.

A computation that can also refuse its input with an error of its own is one
with two layers: a panic, or a result that is an error or a value. `Returns`
says that it does not panic and gives the result of another computation, one
without panics. It is kept by every way of putting computations together, so
that a proof walks through the two side by side. What has been read so far is
known at each step, which is what bounds the next one.

## Main definitions

* `Panic`, `MayPanic`: The ways to panic, and what may.
* `add`, `mul`, `sub`, `shl`, `addU8`: Checked arithmetic.
* `index`, `slice`, `get`, `tryInto`, `copyFromSlice`, `reserve`: Slices.
* `Returns`: The result, and no panic on the way.
* `many`: A loop of rounds that may panic.

## Theorems

* `returns_bind`: Two computations go on side by side.
* `returns_step`: A step that only the panicking one makes.
* `returns_many`: Loops whose rounds go on side by side.
-/

namespace ShredStream

/-- The ways to panic. `unbounded` is none of the machine's: it is a loop that
    has not come to an end in the rounds the model gives it. -/
inductive Panic where
  | overflow
  | outOfRange
  | unwrap
  | copyLength
  | capacity
  | unbounded
  deriving DecidableEq, Repr

abbrev MayPanic := Except Panic

namespace MayPanic

variable {α β ε : Type}

/-! ### Arithmetic -/

/-- The number, if it is a `usize`. -/
def usize (n : Nat) : MayPanic Nat :=
  if n < 2 ^ 64 then .ok n else .error .overflow

def add (a b : Nat) : MayPanic Nat := usize (a + b)

def mul (a b : Nat) : MayPanic Nat := usize (a * b)

def sub (a b : Nat) : MayPanic Nat :=
  if b ≤ a then .ok (a - b) else .error .overflow

/-- A shift keeps the low 64 bits; only its distance is checked. -/
def shl (a k : Nat) : MayPanic Nat :=
  if k < 64 then .ok ((a <<< k) % 2 ^ 64) else .error .overflow

def addU8 (a b : UInt8) : MayPanic UInt8 :=
  if a.toNat + b.toNat < 256 then .ok (a + b) else .error .overflow

def addU32 (a b : Nat) : MayPanic Nat :=
  if a + b < 2 ^ 32 then .ok (a + b) else .error .overflow

theorem add_ok (a b : Nat) (h : a + b < 2 ^ 64) : add a b = .ok (a + b) := if_pos h

theorem mul_ok (a b : Nat) (h : a * b < 2 ^ 64) : mul a b = .ok (a * b) := if_pos h

theorem sub_ok (a b : Nat) (h : b ≤ a) : sub a b = .ok (a - b) := if_pos h

theorem shl_ok (a k : Nat) (hk : k < 64) (h : a <<< k < 2 ^ 64) : shl a k = .ok (a <<< k) := by
  rw [shl, if_pos hk, Nat.mod_eq_of_lt h]

theorem addU8_ok (a b : UInt8) (h : a.toNat + b.toNat < 256) : addU8 a b = .ok (a + b) := if_pos h

theorem addU32_ok (a b : Nat) (h : a + b < 2 ^ 32) : addU32 a b = .ok (a + b) := if_pos h

/-! ### Slices -/

/-- `xs[i]`. -/
def index (xs : List α) (i : Nat) : MayPanic α :=
  match xs[i]? with
  | some a => .ok a
  | none => .error .outOfRange

/-- `&xs[a..b]`. -/
def slice (xs : List α) (a b : Nat) : MayPanic (List α) :=
  if a ≤ b ∧ b ≤ xs.length then .ok ((xs.drop a).take (b - a)) else .error .outOfRange

/-- `xs.get(a..b)`, which does not panic. -/
def get (xs : List α) (a b : Nat) : Option (List α) :=
  if a ≤ b ∧ b ≤ xs.length then some ((xs.drop a).take (b - a)) else none

/-- `xs.try_into().unwrap()`, into an array of `n` elements. -/
def tryInto (n : Nat) (xs : List α) : MayPanic { w : List α // w.length = n } :=
  if h : xs.length = n then .ok ⟨xs, h⟩ else .error .unwrap

/-- `dst.copy_from_slice(src)`, into an array of `n` elements. -/
def copyFromSlice (n : Nat) (src : List α) : MayPanic { w : List α // w.length = n } :=
  if h : src.length = n then .ok ⟨src, h⟩ else .error .copyLength

/-- Room for `n` elements of `size` bytes each: an allocation has at most
    `isize::MAX` bytes. -/
def reserve (n size : Nat) : MayPanic Unit :=
  if n * size < 2 ^ 63 then .ok () else .error .capacity

/-- `xs.chunks_exact(n)`. -/
def chunksExact (n : Nat) (xs : List α) : List (List α) :=
  (List.range (xs.length / n)).map (fun k => (xs.drop (n * k)).take n)

theorem index_ok (xs : List α) (i : Nat) (a : α) (h : xs[i]? = some a) : index xs i = .ok a := by
  rw [index, h]

theorem slice_ok (xs : List α) (a b : Nat) (hab : a ≤ b) (hb : b ≤ xs.length) :
    slice xs a b = .ok ((xs.drop a).take (b - a)) := if_pos ⟨hab, hb⟩

theorem get_window (xs : List α) (o n : Nat) :
    get xs o (o + n) = if o + n ≤ xs.length then some ((xs.drop o).take n) else none := by
  rw [get, Nat.add_sub_cancel_left]
  simp only [Nat.le_add_right, true_and]

theorem tryInto_ok (n : Nat) (xs : List α) (h : xs.length = n) : tryInto n xs = .ok ⟨xs, h⟩ :=
  dif_pos h

theorem copyFromSlice_ok (n : Nat) (src : List α) (h : src.length = n) :
    copyFromSlice n src = .ok ⟨src, h⟩ := dif_pos h

theorem reserve_ok (n size : Nat) (h : n * size < 2 ^ 63) : reserve n size = .ok () := if_pos h

/-- The first chunk, and the chunks of the rest. -/
theorem chunksExact_append (n : Nat) (hn : 0 < n) (xs rest : List α) (h : xs.length = n) :
    chunksExact n (xs ++ rest) = xs :: chunksExact n rest := by
  have hlen : (xs ++ rest).length / n = rest.length / n + 1 := by
    rw [List.length_append, h, Nat.add_div_left _ hn]
  rw [chunksExact, hlen, List.range_succ_eq_map, List.map_cons, List.map_map, chunksExact]
  congr 1
  · rw [Nat.mul_zero, List.drop_zero, List.take_left' h]
  · refine List.map_congr_left (fun k _ => ?_)
    simp only [Function.comp_apply, Nat.succ_eq_add_one]
    rw [Nat.mul_add, Nat.mul_one, Nat.add_comm, ← List.drop_drop, List.drop_left' h]

/-! ### Results, and no panic on the way -/

/-- Nothing panics, and the result is `r`. -/
def Returns (m : ExceptT ε MayPanic α) (r : Except ε α) : Prop := m.run = .ok r

theorem returns_pure (a : α) : Returns (pure a : ExceptT ε MayPanic α) (.ok a) := rfl

theorem returns_throw (e : ε) : Returns (throw e : ExceptT ε MayPanic α) (.error e) := rfl

theorem returns_lift (m : MayPanic α) (a : α) (h : m = .ok a) :
    Returns (liftM m : ExceptT ε MayPanic α) (.ok a) := by
  rw [h]
  rfl

/-- Two computations go on side by side; what comes next may use what has been
    read. -/
theorem returns_bind (m : ExceptT ε MayPanic α) (r : Except ε α) (f : α → ExceptT ε MayPanic β)
    (g : α → Except ε β) (h : Returns m r) (hf : ∀ a, r = .ok a → Returns (f a) (g a)) :
    Returns (m >>= f) (r >>= g) := by
  rw [Returns, ExceptT.run_bind, h]
  cases r with
  | error e => rfl
  | ok a => exact hf a rfl

/-- A step that cannot refuse the input, and does not panic. -/
theorem returns_step (m : MayPanic α) (a : α) (f : α → ExceptT ε MayPanic β) (r : Except ε β)
    (h : m = .ok a) (hf : Returns (f a) r) : Returns (liftM m >>= f) r := by
  rw [h]
  exact hf

/-- A step of a computation that cannot refuse its input. -/
theorem ok_step (m : MayPanic α) (a : α) (f : α → MayPanic β) (b : β) (h : m = .ok a)
    (hf : f a = .ok b) : (m >>= f) = .ok b := by
  rw [h]
  exact hf

/-! ### Loops -/

/-- A loop of `n` rounds, each starting where the last one stopped. -/
def many (r : List β → Nat → ExceptT ε MayPanic (α × Nat)) :
    Nat → List β → Nat → ExceptT ε MayPanic (List α × Nat)
  | 0, _, o => pure ([], o)
  | n + 1, buf, o => do
    let (a, o) ← r buf o
    let (as, o) ← many r n buf o
    return (a :: as, o)

/-- Loops whose rounds go on side by side, as long as they stay inside the
    buffer. -/
theorem returns_many (r : List β → Nat → ExceptT ε MayPanic (α × Nat)) (p : Cursor.Reader β ε α)
    (G : α → List β → Prop) (hp : Cursor.Sound G p) (buf : List β)
    (h : ∀ o, o ≤ buf.length → Returns (r buf o) (p buf o)) (n : Nat) :
    ∀ o, o ≤ buf.length → Returns (many r n buf o) (Cursor.readMany p n buf o) := by
  induction n with
  | zero =>
      intro o _
      exact returns_pure _
  | succ n ih =>
      intro o ho
      -- The loop of the reader, as the same chain of binds.
      have hread : Cursor.readMany p (n + 1) buf o = (p buf o >>= fun x =>
          Cursor.readMany p n buf x.2 >>= fun y => pure (x.1 :: y.1, y.2)) := by
        rcases hhead : p buf o with e | ⟨a, m⟩
        · rw [Cursor.readMany, hhead]
          rfl
        · rcases htail : Cursor.readMany p n buf m with e | ⟨as, k⟩ <;>
            simp only [Cursor.readMany, hhead, htail, bind, Except.bind, pure, Except.pure]
      rw [hread]
      refine returns_bind _ _ _ _ (h o ho) ?_
      rintro ⟨a, m⟩ ha
      rcases hp buf o a m ha with ⟨w, _, hat, rfl⟩
      refine returns_bind _ _ _ _ (ih _ (Cursor.at_length buf w o hat)) ?_
      rintro ⟨as, k⟩ _
      exact returns_pure _

end MayPanic

end ShredStream
