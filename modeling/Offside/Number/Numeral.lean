/-!
Decimal numerals of integers of any size. A long integer is converted in chunks of digits, from its
lowest chunk when it is written and from its highest when it is read.
-/

namespace Offside.Number

def digitValue (c : Char) : Nat := c.toNat - 0x30

/-- The number denoted by a run of ASCII digits, most significant first. -/
def ofDigits (ds : List Char) : Nat := ds.foldl (fun n c => n * 10 + digitValue c) 0

def natNumeral (n : Nat) : List Char := Nat.toDigits 10 n

/-- The canonical numeral of an integer. -/
def numeralChars : Int → List Char
  | .ofNat n => natNumeral n
  | .negSucc n => '-' :: natNumeral (n + 1)

/-- How many digits are converted at a time. -/
def chunkLength : Nat := 1000

/-- Ten to the power of `chunkLength`. -/
def chunkBase : Nat :=
  -- a power of a power: the evaluation of closed terms stops at large exponents
  (10 ^ 100) ^ 10

/-- The chunks of a number, the lowest first. -/
def chunks (n : Nat) : List Nat :=
  if n = 0 then [] else n % chunkBase :: chunks (n / chunkBase)
termination_by n
decreasing_by exact Nat.div_lt_self (Nat.pos_of_ne_zero ‹_›) (by decide)

/-- A chunk that is not the highest, with its leading zeros. -/
def paddedChunk (n : Nat) : List Char := (natNumeral n).leftpad chunkLength '0'

def longNumeral (n : Nat) : List Char :=
  match (chunks n).reverse with
  | [] => []
  | top :: rest => natNumeral top ++ rest.flatMap paddedChunk

/-- The numeral of an integer; one of more than a chunk is put together from chunks. -/
def numeral (n : Int) : String :=
  String.ofList <|
    if -chunkBase < n ∧ n < chunkBase then numeralChars n
    else if n < 0 then '-' :: longNumeral n.natAbs else longNumeral n.natAbs

/-- The number denoted by a run of ASCII digits, read chunk by chunk. -/
def readDigits (ds : List Char) : Nat :=
  (List.range' 0 ((ds.length + chunkLength - 1) / chunkLength) chunkLength).foldl
    (fun n start =>
      let chunk := (ds.drop start).take chunkLength
      n * Nat.pow 10 chunk.length + ofDigits chunk) 0

/-- Reads an optional sign and one or more ASCII digits, and nothing else. -/
def readInteger? (cs : List Char) : Option Int :=
  let (negative, ds) := match cs with
    | '-' :: rest => (true, rest)
    | '+' :: rest => (false, rest)
    | rest => (false, rest)
  if ds.isEmpty || !ds.all Char.isDigit then none
  else some (if negative then -(readDigits ds : Int) else readDigits ds)

end Offside.Number
