import ShredStream.Core.Filters
import ShredStream.Core.Time

/-!
# Configuration

The gRPC client's configuration, the endpoint syntax it accepts, and the
reconnect policy with the arithmetic of its delays.

The delay before an attempt is drawn uniformly below a bound that grows by a
factor from attempt to attempt. The source computes in `f64`; the model reads
the same expressions over the rationals, keeping the integer parts — the
saturating counter, its cast to `i32`, the 64-bit generator — as they are, and
the rounding to whole nanoseconds at the end.

So every number here is finite. In the source a power may overflow, which does
no harm to a positive initial delay, since the maximum is taken then; but an
initial delay of zero times infinity is NaN, and the maximum is taken as well,
where the model has zero. And nobody checks the factor: with a negative one the
source panics at the second backoff. What is said of the size of delays is
therefore said of a positive initial delay and a factor of at least one, and
what is said of a client that goes on and on, of a factor that is not negative.

## Main definitions

* `normalizeEndpoint`: The URL of a `host` or `host:port` string.
* `ReconnectPolicy`: The parameters of the backoff.
* `Jitter`: The generator the delays are drawn with.
* `backoffBound`: The bound below which the delay of an attempt is drawn.
* `GrpcConfig`: Everything `connect` takes.
-/

namespace ShredStream

inductive ConnectError where
  | invalidEndpoint (endpoint : String)
  | filter (e : FilterError)
  | invalidToken
  | transport (text : String)
  deriving DecidableEq, Repr

def defaultPort : Nat := 9991

/-- `char::is_whitespace`: the Unicode property White_Space. -/
def isWhitespace (c : Char) : Bool :=
  let n := c.toNat
  (9 ≤ n && n ≤ 13) || n == 0x20 || n == 0x85 || n == 0xA0 || n == 0x1680 ||
    (0x2000 ≤ n && n ≤ 0x200A) || n == 0x2028 || n == 0x2029 || n == 0x202F ||
    n == 0x205F || n == 0x3000

/-- `str::trim`. -/
def trim (s : List Char) : List Char :=
  ((s.dropWhile isWhitespace).reverse.dropWhile isWhitespace).reverse

/-- `str::strip_prefix`. -/
def stripPrefix? : List Char → List Char → Option (List Char)
  | [], s => some s
  | _ :: _, [] => none
  | p :: ps, c :: cs => if p = c then stripPrefix? ps cs else none

/-- The position of the last occurrence of a character. -/
def rfind (c : Char) (s : List Char) : Option Nat :=
  (s.reverse.findIdx? (· == c)).map (fun i => s.length - 1 - i)

/-- `char::is_ascii_digit`. -/
def isAsciiDigit (c : Char) : Bool := '0' ≤ c && c ≤ '9'

/-- Whether the last colon starts a port: only digits after it, at least one,
    and no bracket past it. -/
def hasPort (e : List Char) : Bool :=
  match rfind ':' e with
  | some i =>
    let after := e.drop (i + 1)
    after.all isAsciiDigit && !after.isEmpty &&
      (match rfind ']' e with
        | some j => decide (i > j)
        | none => true)
  | none => false

def normalizeEndpoint (endpoint : String) : Except ConnectError String :=
  let e := trim endpoint.toList
  -- One `http://` is taken off; `https://` is refused, whatever is behind it.
  let e := (stripPrefix? "http://".toList e).getD e
  if e.isEmpty || e.contains '/' || (stripPrefix? "https://".toList e).isSome then
    .error (.invalidEndpoint endpoint)
  else if hasPort e then .ok (String.ofList ("http://".toList ++ e))
  else .ok (String.ofList ("http://".toList ++ e ++ (":" ++ toString defaultPort).toList))

structure ReconnectPolicy where
  initial : Duration := Duration.fromMillis 100
  max : Duration := Duration.fromSecs 5
  multiplier : ℚ := 2
  resetAfter : Duration := Duration.fromSecs 30

/-- `u32::saturating_add(1)`. -/
def saturatingSucc (n : UInt32) : UInt32 := if n = 0xFFFFFFFF then n else n + 1

/-- `u32::saturating_sub(1)`. -/
def saturatingPred (n : UInt32) : UInt32 := if n = 0 then 0 else n - 1

/-- The bound of the delay before attempt number `attempt`. The exponent is
    the counter less one, cast to `i32`. -/
def backoffBound (policy : ReconnectPolicy) (attempt : UInt32) : ℚ :=
  min (policy.initial.asSecs * policy.multiplier ^ (saturatingPred attempt).toInt32.toInt)
    policy.max.asSecs

structure Jitter where
  state : UInt64
  deriving DecidableEq, Repr

namespace Jitter

/-- Seeded with the nanoseconds since the epoch, or a constant when the clock
    stands before it. -/
def new (sinceEpoch : Option Nat) : Jitter :=
  let seed := (sinceEpoch.map UInt64.ofNat).getD 0x9E3779B97F4A7C15
  ⟨seed ||| 1⟩

/-- One xorshift step. -/
def advance (x : UInt64) : UInt64 :=
  let x := x ^^^ (x <<< 13)
  let x := x ^^^ (x >>> 7)
  x ^^^ (x <<< 17)

/-- The next state and the value drawn from it. -/
def next (j : Jitter) : Jitter × ℚ :=
  let x := advance j.state
  (⟨x⟩, ((x >>> 11).toNat : ℚ) / 2 ^ 53)

end Jitter

inductive AuthStyle where
  | bearer
  | xToken
  deriving DecidableEq, Repr

structure GrpcConfig where
  endpoint : String
  token : String
  authStyle : AuthStyle := .bearer
  filters : Filters := .new
  reconnect : ReconnectPolicy := {}
  connectTimeout : Duration := Duration.fromSecs 5

namespace GrpcConfig

/-- One more named filter. -/
def filter (cfg : GrpcConfig) (name : String) (f : Filter) : GrpcConfig :=
  { cfg with filters := cfg.filters.add name f }

end GrpcConfig

end ShredStream
