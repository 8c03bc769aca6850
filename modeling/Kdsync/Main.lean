import Kdsync.Event

/-!
# Parameters of `main`

How `main` reads `EVENT_CHUNK` from the environment: `atoi`, and the conversion of its `int` to the
`unsigned int` the constructors take.
-/

namespace Kdsync

/-- `EVENT_CHUNK`. -/
def eventChunkDefault : UInt32 := 10

/-- The white space `atoi` skips. -/
def isSpace (c : UInt8) : Bool := c == 32 || (9 ≤ c && c ≤ 13)

/-- A decimal digit. -/
def isDigit (c : UInt8) : Bool := 48 ≤ c && c ≤ 57

/-- The value of the digits at the start of a string, zero if there are none. -/
def leadingNumber (s : Bytes) : ℕ :=
  (s.takeWhile isDigit).foldl (fun value digit => 10 * value + (digit.toNat - 48)) 0

/-- `atoi`: white space, an optional sign, digits. A number out of range is undefined. -/
def atoi (s : Bytes) : Option Int32 :=
  let value : ℤ := match s.dropWhile isSpace with
    | 45 :: digits => -(leadingNumber digits : ℤ)
    | 43 :: digits => leadingNumber digits
    | digits => leadingNumber digits
  if Int32.minValue.toInt ≤ value ∧ value ≤ Int32.maxValue.toInt then some (Int32.ofInt value)
  else none

/-- `event_chunk` in `main`, from `getenv("EVENT_CHUNK")`. -/
def eventChunkOf (strEventChunk : Option Bytes) : Option UInt32 :=
  match strEventChunk with
  | none => some eventChunkDefault
  | some s => (atoi s).map Int32.toUInt32

end Kdsync
