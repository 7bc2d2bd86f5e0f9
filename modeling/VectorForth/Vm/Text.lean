import VectorForth.Vm.State

/-!
# Numbers and tokens

The parts of `stdlib.c` that the interpreter uses, and the parser of
`forth.c`. `parse_ptr` is kept as the text that is still to be read.
-/

namespace VectorForth.Forth

open ByteMemory

/-! ## stdlib.c -/

def isspace (c : Byte) : Bool :=
  c == chr ' ' || c == chr '\t' || c == chr '\n' || c == chr '\r' || c == 0x0C#8 || c == 0x0B#8

def digitChar (digit : Nat) : Byte :=
  if digit < 10 then chr '0' + BitVec.ofNat 8 digit else chr 'a' + BitVec.ofNat 8 (digit - 10)

/-- The `do … while` that emits digits, least significant first. A 64-bit value
has at most 64 of them. -/
def emitDigits (base : Nat) : Nat → Nat → Text
  | 0, _ => []
  | fuel + 1, n =>
      digitChar (n % base) :: if n / base = 0 then [] else emitDigits base fuel (n / base)

def ultoa (value : Nat) (base : Nat) : Text :=
  if base < 2 ∨ 36 < base then [] else (emitDigits base 64 value).reverse

def ltoa (value : Cell) (base : Nat) : Text :=
  if base < 2 ∨ 36 < base then []
  else if value.msb ∧ base = 10 then chr '-' :: (emitDigits base 64 (-value).toNat).reverse
  else (emitDigits base 64 value.toNat).reverse

def utoa (value : BitVec 32) (base : Nat) : Text := ultoa value.toNat base

def itoa (value : BitVec 32) (base : Nat) : Text :=
  if base < 2 ∨ 36 < base then []
  else if value.msb ∧ base = 10 then chr '-' :: (emitDigits base 64 (-value).toNat).reverse
  else (emitDigits base 64 value.toNat).reverse

def digitValue (c : Byte) : Option Nat :=
  if chr '0' ≤ c ∧ c ≤ chr '9' then some (c - chr '0').toNat
  else if chr 'a' ≤ c ∧ c ≤ chr 'z' then some ((c - chr 'a').toNat + 10)
  else if chr 'A' ≤ c ∧ c ≤ chr 'Z' then some ((c - chr 'A').toNat + 10)
  else none

/-- The digit loop of `strtol`: the value so far and what is left. -/
def strtolDigits (base : Nat) : Text → Cell → Cell × Text
  | [], result => (result, [])
  | c :: rest, result =>
      match digitValue c with
      | none => (result, c :: rest)
      | some digit =>
          if digit ≥ base then (result, c :: rest)
          else strtolDigits base rest (result * BitVec.ofNat 64 base + BitVec.ofNat 64 digit)

/-- `strtol` for a nonzero base: the value and the text at `endptr`. -/
def strtol (str : Text) (base : Nat) : Cell × Text :=
  match str.dropWhile isspace with
  | c :: rest =>
      if c = chr '-' then
        let (result, tail) := strtolDigits base rest 0#64
        (-result, tail)
      else if c = chr '+' then strtolDigits base rest 0#64
      else strtolDigits base (c :: rest) 0#64
  | [] => (0#64, [])

/-- `strtoul` for a nonzero base; its digit loop is that of `strtol`. -/
def strtoul (str : Text) (base : Nat) : Cell × Text :=
  match str.dropWhile isspace with
  | c :: rest =>
      if c = chr '+' then strtolDigits base rest 0#64 else strtolDigits base (c :: rest) 0#64
  | [] => (0#64, [])

/-! ## The parser -/

/-- Split off the next token, of at most `maxLen - 1` characters. -/
def nextWord (maxLen : Nat) (p : Text) : Text × Text :=
  let p := p.dropWhile isspace
  let word := (p.takeWhile fun c => !isspace c).take (maxLen - 1)
  (word, p.drop word.length)

/-- The characters up to `delim`, and what follows them. -/
def nextUntil (delim : Byte) (maxLen : Nat) (p : Text) : Text × Text :=
  let p := if p.head? = some (chr ' ') then p.tail else p
  let word := (p.takeWhile fun c => c != delim).take (maxLen - 1)
  let rest := p.drop word.length
  (word, if rest.head? = some delim then rest.tail else rest)

def parseWord (maxLen : Nat) : NativeM Text := fun d =>
  let (word, rest) := nextWord maxLen d.parsePtr
  some (word, { d with parsePtr := rest })

def parseUntil (delim : Byte) (maxLen : Nat) : NativeM Text := fun d =>
  let (word, rest) := nextUntil delim maxLen d.parsePtr
  some (word, { d with parsePtr := rest })

/-- `try_parse_number`: an optional base prefix, then everything `strtol` reads. -/
def tryParseNumber (forthBase : Nat) (word : Text) : Option Cell :=
  let (base, digits) :=
    match word with
    | c :: rest =>
        if c = chr '0' ∧ (rest.head? = some (chr 'x') ∨ rest.head? = some (chr 'X')) then
          (16, rest.tail)
        else if c = chr '$' then (16, rest)
        else if c = chr '#' then (10, rest)
        else if c = chr '%' then (2, rest)
        else (forthBase, word)
    | [] => (forthBase, word)
  let (val, tail) := strtol digits base
  if tail = [] ∧ digits ≠ [] then some val else none

end VectorForth.Forth
