import Noam.Literal
import Noam.Parser

/-!
# Intrinsic parsers (`util/intrinsic_types.hpp`, `intrinsics.hpp`)

`std::from_chars` is a parameter (`FromChars`): a function of the characters in `[first, last)`
which on success returns a pointer in `(first, last]` and a value.
-/

namespace Noam
open GetResult ValueType

/-- `std::from_chars` for values `V`: how many characters it read, and the value. -/
structure FromChars (V : ValueType) where
  fromChars : List UInt8 → Option (Nat × V)
  read_le : ∀ {text n v}, fromChars text = some (n, v) → 0 < n ∧ n ≤ text.length

variable {V : ValueType} (mem : Memory)

/-- `parsers::pure` -/
def pureParser (value : V) : Parser true V where
  parse st := return PureResult.mk st value

/-- `parsers::charconv` -/
def charconv (fc : FromChars V) : Parser false V where
  parse st :=
    match fc.fromChars (st.text mem) with
    | some (n, value) => return .of ⟨st._begin + n, st._end⟩ value
    | none => return failed

def literal (lits : List AnyLiteral) : Parser false empty where
  parse st :=
    match AnyLiteral.checkAndUpdateAny mem lits st with
    | (true, st) => return .of st ()
    | (false, _) => return failed

/-- `literal_makes<T, lits...>`, which returns `T {}`. -/
def literalMakes (T : ValueType) (h : T.default?.isSome) (lits : List AnyLiteral) : Parser false T where
  parse st :=
    match AnyLiteral.checkAndUpdateAny mem lits st with
    | (true, st) => return .of st (T.default?.get h)
    | (false, _) => return failed

def literalConstant (constant : V) (lits : List AnyLiteral) : Parser false V where
  parse st :=
    match AnyLiteral.checkAndUpdateAny mem lits st with
    | (true, st) => return .of st constant
    | (false, _) => return failed

/-- The loop of `zero_or_more_chars`, with `n` characters from `begin` to `end`. -/
def skipChars (chars : List UInt8) : Nat → Nat → Nat
  | 0, p => p
  | n + 1, p => if mem p ∈ chars then skipChars chars n (p + 1) else p

/-- `match_chs<chars...>` -/
def zeroOrMoreChars (chars : List UInt8) : Parser true empty where
  parse st := return PureResult.mk ⟨skipChars mem chars (st._end - st._begin) st._begin, st._end⟩ ()

/-- The loop of `count_chars` from index `i` on, with `n` indices left. -/
def countLoop (chars : List UInt8) (st : State) : Nat → Nat → Nat
  | 0, i => i
  | n + 1, i => if st.get mem i ∈ chars then countLoop chars st n (i + 1) else i

/-- `count_ch<chars...>` -/
def countChars (chars : List UInt8) : Parser true sizeT where
  parse st :=
    let size := toSizeT st.size
    let i := countLoop mem chars st size 0
    return PureResult.mk (st.removePrefix i) i

/-- `parse_bool` -/
def boolParser : Parser false bool where
  parse st :=
    if st.startsWithArray mem [ch 't', ch 'r', ch 'u', ch 'e'] then return .of (st.substr 4) true
    else if st.startsWithArray mem [ch 'f', ch 'a', ch 'l', ch 's', ch 'e'] then
      return .of (st.substr 5) false
    else return failed

/-- The value of the escape code `\c` in a string. -/
def escapeCode (c : UInt8) : Option UInt8 :=
  if c = ch 'b' then some 8
  else if c = ch 'f' then some 12
  else if c = ch 'n' then some (ch '\n')
  else if c = ch 'r' then some (ch '\r')
  else if c = ch 't' then some (ch '\t')
  else if c = ch '\\' then some (ch '\\')
  else if c = ch '"' then some (ch '"')
  else none

/-- One round of the loop of `string_parser`; it stops with `none` on an unknown escape code. -/
def stringRound (st : State) (count : Nat) (x : Nat × List UInt8) :
    Option (Loop.Round (Nat × List UInt8) (Option (Nat × List UInt8))) :=
  let (i, str) := x
  if i < count then
    let c := st.get mem i
    if c = ch '\\' then
      match escapeCode (st.get mem (i + 1)) with
      | some val => return .next (i + 2, str ++ [val])
      | none => return .done none
    else if c = ch '"' then return .done (some (i, str))
    else return .next (i + 1, str ++ [c])
  else return .done (some (i, str))

/-- `parse_string` -/
def stringParser : Parser false string where
  parse st :=
    if st.size ≥ 2 ∧ st.get mem 0 = ch '"' then do
      match ← Loop.loop (stringRound mem st (toSizeT (st.size - 1))) (1, []) with
      | none => return failed
      | some (i, str) =>
        if st.get mem i = ch '"' then return .of (st.substr (i + 1)) str else return failed
    else return failed

/-- One round of the loop of `view_parser`, for a view that begins at `viewBegin`. -/
def viewRound (end_ escape : AnyLiteral) (viewBegin : Nat) (st : State) :
    Option (Loop.Round State (Option (State × List UInt8))) :=
  if st.size > 0 then
    let viewEnd := st._begin
    match end_.checkAndUpdate mem st with
    | (true, st) => return .done (some (st, mem.read viewBegin (viewEnd - viewBegin)))
    | (false, st) =>
      match escape.checkAndUpdate mem st with
      | (true, st) => return .next (end_.checkAndUpdate mem st).2
      | (false, st) => return .next (st.removePrefix 1)
  else return .done none

def viewParser (begin_ end_ escape : AnyLiteral) : Parser false stringView where
  parse st :=
    match begin_.checkAndUpdate mem st with
    | (true, st) => do
      match ← Loop.loop (viewRound mem end_ escape st._begin) st with
      | some (st, view) => return .of st view
      | none => return failed
    | (false, _) => return failed

/-- `parse_string_view` -/
def parseStringView : Parser false stringView :=
  viewParser mem (.charLiteral (ch '"')) (.charLiteral (ch '"')) (.charLiteral (ch '\\'))

/-- The index at which the loop of `line_parser` finds an LF, with `n` indices left from `i` on. -/
def lineLoop (st : State) : Nat → Nat → Option Nat
  | 0, _ => none
  | n + 1, i => if st.get mem i ≠ ch '\n' then lineLoop st n (i + 1) else some i

/-- `parse_line` -/
def lineParser : Parser true stringView where
  parse st :=
    let size := toSizeT st.size
    match lineLoop mem st size 0 with
    | some i =>
      let lineSize := if 0 < i ∧ st.get mem (i - 1) = ch '\r' then i - 1 else i
      return PureResult.mk (st.substr (i + 1)) ((st.substrCount 0 lineSize).text mem)
    | none => return PureResult.mk (st.substr size) (st.text mem)

def testPrefix (pre : State) : Parser true bool where
  parse st :=
    if st.startsWith mem pre then return PureResult.mk (st.substr (toSizeT pre.size)) true
    else return PureResult.mk st false

def requirePrefix (pre : State) : Parser false state where
  parse st :=
    if st.startsWith mem pre then return .of (st.substr (toSizeT pre.size)) pre
    else return failed

/-- `' '`, `'\t'`, `'\n'`, `'\r'` -/
def whitespaceChars : List UInt8 := [ch ' ', ch '\t', ch '\n', ch '\r']

def whitespace : Parser true empty := zeroOrMoreChars mem whitespaceChars

end Noam
