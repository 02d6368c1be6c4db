/-!
# Roots

A root is the 32-byte hash by which a block or a state is known.  Roots are
compared byte by byte, the first byte first, which is the order of the numbers
the bytes spell.  Their text is the hexadecimal form with the mark `0x`.
-/

namespace BeaconChain

/-- A 32-byte hash, read as one number whose first byte is the most
significant. -/
structure Root where
  bits : BitVec 256
  deriving DecidableEq, Repr

namespace Root

def zero : Root := ⟨0⟩

instance : Inhabited Root := ⟨zero⟩

instance : LT Root where
  lt left right := left.bits < right.bits

instance (left right : Root) : Decidable (left < right) :=
  inferInstanceAs (Decidable (left.bits < right.bits))

instance : Ord Root where
  compare left right := compare left.bits.toNat right.bits.toNat

theorem lt_iff (left right : Root) :
    left < right ↔ left.bits.toNat < right.bits.toNat :=
  Iff.rfl

def digitCount : Nat := 64

def hexDigits (root : Root) : List Char :=
  (List.range digitCount).map fun place =>
    Nat.digitChar (root.bits.toNat >>> (4 * (digitCount - 1 - place)) % 16)

@[simp]
theorem length_hexDigits (root : Root) : root.hexDigits.length = digitCount := by
  simp [hexDigits]

/-- The written form: the mark `0x` and 64 lower case digits. -/
def text (root : Root) : String :=
  "0x" ++ String.ofList root.hexDigits

instance : ToString Root := ⟨text⟩

def digitValue? (digit : Char) : Option Nat :=
  if '0' ≤ digit ∧ digit ≤ '9' then some (digit.toNat - '0'.toNat)
  else if 'a' ≤ digit ∧ digit ≤ 'f' then some (digit.toNat - 'a'.toNat + 10)
  else if 'A' ≤ digit ∧ digit ≤ 'F' then some (digit.toNat - 'A'.toNat + 10)
  else none

/-- Blanks may stand between the digits of a root. -/
def isBlank (symbol : Char) : Bool :=
  symbol = ' ' || symbol = '\t' || symbol = '\n' || symbol = '\r'

/-- The number that a list of digit values spells in base sixteen. -/
def ofDigitValues (values : List Nat) : Nat :=
  values.foldl (fun number value => 16 * number + value) 0

/-- The text without the mark `0x`, which may be missing. -/
def dropMark : List Char → List Char
  | '0' :: 'x' :: rest => rest
  | symbols => symbols

/-- Reads a root from exactly 64 symbols, which the mark `0x` may precede.
Digits of either case are taken in pairs; a blank holds a place without giving
a digit, and the bytes for which no pair is left are zero. -/
def ofText? (source : List Char) : Option Root :=
  let symbols := dropMark source
  if symbols.length = digitCount then do
    let values ← (symbols.filter fun symbol => !isBlank symbol).mapM digitValue?
    let paired := values.take (values.length / 2 * 2)
    let missing := List.replicate (digitCount - paired.length) 0
    return ⟨BitVec.ofNat 256 (ofDigitValues (paired ++ missing))⟩
  else none

end Root

end BeaconChain
