import ShredStream.Core.Message

/-!
# The Message Part at a Pointer Width

`message_bytes` once more, with `usize` as a word of the width that pointers
have on the target. Sums, differences, products and shifts wrap, as they do
in a release build; lengths are cut to the width. `Core/Message.lean` has the
same function over the natural numbers.

## Main definitions

* `Usize`: `usize` on a target.
* `shortvec`, `checkedSub`, `messageBytes`: The functions of `message.rs`.
-/

namespace ShredStream

namespace Wrapping

open Message (Result byteAt)

/-- `usize` where pointers have `w` bits. -/
abbrev Usize (w : Nat) := BitVec w

variable {w : Nat}

/-- The loop of `shortvec`. -/
def shortvecLoop (buf : Bytes) (what : String) (start : Usize w) :
    Nat → Usize w → Nat → Usize w → Result (Usize w × Usize w)
  | 0, _, _, _ => .error ⟨what⟩
  | rounds + 1, value, shift, o => match buf[o.toNat]? with
    | none => .error ⟨what⟩
    | some b =>
      let o := o + 1
      let value := value ||| (BitVec.ofNat w (b &&& 0x7f).toNat <<< shift)
      if b &&& 0x80 = 0 then .ok (value, o - start)
      else if shift + 7 > 21 then .error ⟨what⟩
      else shortvecLoop buf what start rounds value (shift + 7) o

def shortvec (buf : Bytes) (offset : Usize w) (what : String) : Result (Usize w × Usize w) :=
  shortvecLoop buf what offset 4 0 0 offset

/-- `usize::checked_sub`. -/
def checkedSub (a b : Usize w) : Option (Usize w) :=
  if b ≤ a then some (a - b) else none

variable (w) in
def messageBytes (tx : Bytes) : Result Bytes :=
  if tx.head? = some 0x81 then do
    let n ← byteAt tx 1 "header"
    let len := BitVec.ofNat w tx.length
    match (checkedSub len (64 * BitVec.ofNat w n.toNat)).filter (fun e => 42 ≤ e) with
    | some e => .ok (tx.take e.toNat)
    | none => .error ⟨"signatures do not fit"⟩
  else do
    let (n, sz) ← shortvec tx (0 : Usize w) "signature count"
    -- Neither the product nor the sum is checked.
    let start := sz + n * 64
    if start.toNat ≤ tx.length then .ok (tx.drop start.toNat)
    else .error ⟨"signatures do not fit"⟩

end Wrapping

end ShredStream
