import Noam.Intrinsics

/-!
# Combinators (`combinators.hpp`, `operators.hpp`, `util/combinator_types.hpp`)

Each combinator is written as the source computes it, with `ifConstexpr` where the source has
`if constexpr`. `Noam.Abstraction` says what each of them is as an `Attempt`.
-/

namespace Noam
open GetResult ValueType Loop

variable {U V W T : ValueType} {g g' : Bool} {gs : List Bool} {Vs : List ValueType} (mem : Memory)

/-! ### `map`, `>>`, `enclose`, `match`, `join` -/

def map (func : V → W) : {g : Bool} → Parser g V → Parser g W
  | true, p =>
    { parse := fun st => do
        let result : PureResult V ← p.parse st
        return PureResult.mk result.state (func result.value) }
  | false, p =>
    { parse := fun st => p.ifParse st (fun st v => return .of st (func v)) (return failed) }

/-- `p1 >> p2` -/
def shiftRight (p1 : Parser g V) (p2 : Parser g' W) : Parser false W where
  parse st :=
    p1.ifParse st
      (fun st _ => p2.ifParse st (fun st v => return .of st v) (return failed))
      (return failed)

instance : HShiftRight (Parser g V) (Parser g' W) (Parser false W) := ⟨shiftRight⟩

def enclose {g₁ g₂ g₃ : Bool} (pre : Parser g₁ U) (par : Parser g₂ V) (post : Parser g₃ W) :
    Parser false V where
  parse st :=
    pre.ifParse st
      (fun st _ => par.ifParse st
        (fun st v => post.ifParse st (fun st _ => return .of st v) (return failed))
        (return failed))
      (return failed)

def match_ (ps : Parsers gs Vs) : Parser (gs.all id) empty where
  parse st := ifConstexpr (gs.all id)
    (do return ⟨← ps.updateAll st, ()⟩)
    (do
      let (ok, st) ← ps.updateWhileGood st
      if ok then return .of st () else return .failed)

/-- The last step of `parsers::join`: `m` matches all parsers but the last. -/
def joinLast : {g : Bool} → Parser g empty → {g' : Bool} → Parser g' V → Parser (g && g') V
  | true, m, _, p => { parse := fun st => do p.parse (← m.parse st).getState }
  | false, m, _, p =>
    { parse := fun st =>
        m.ifParse st (fun st _ => do return (← p.parse st).toResult) (return failed) }

/-- `join(ps..., p)` -/
def join (ps : Parsers gs Vs) (p : Parser g V) : Parser (gs.all id && g) V :=
  match gs, Vs, ps with
  | _, _, .nil => p
  | _, _, .cons q ps => joinLast (match_ (.cons q ps)) p

/-- `separator<sep...>` -/
def separator (sep : List AnyLiteral) : Parser false empty :=
  match_ (.cons (whitespace mem) (.cons (literal mem sep) (.cons (whitespace mem) .nil)))

/-! ### `either` -/

/-- `either<Value>()` -/
def either₀ (W : ValueType) : Parser false W where
  parse _ := return failed

/-- `either<Value>(p)` -/
def either₁ (p : Parser g V) : Conversion V W → Parser g W
  | .same => p
  | .convert f => map f p

/-- What follows the last alternative: `if constexpr (!good) return {};`, and the end of the
function. -/
def eitherEnd (good : Bool) (W : ValueType) : Option (GetResult W good) :=
  ifConstexpr good none (return .failed)

/-- `either<Value>(pa, pb)` -/
def either₂ {ga gb : Bool} (pa : Parser ga U) (ca : Conversion U W) (pb : Parser gb V)
    (cb : Conversion V W) : Parser (ga || gb) W where
  parse st :=
    pa.ifParse st (fun st v => return .of st (ca.apply v)) <|
    pb.ifParse st (fun st v => return .of st (cb.apply v)) <|
    eitherEnd (ga || gb) W

/-- `either<Value>(pa, pb, pc)` -/
def either₃ {ga gb gc : Bool} {A B C : ValueType} (pa : Parser ga A) (ca : Conversion A W)
    (pb : Parser gb B) (cb : Conversion B W) (pc : Parser gc C) (cc : Conversion C W) :
    Parser (ga || gb || gc) W where
  parse st :=
    pa.ifParse st (fun st v => return .of st (ca.apply v)) <|
    pb.ifParse st (fun st v => return .of st (cb.apply v)) <|
    pc.ifParse st (fun st v => return .of st (cc.apply v)) <|
    eitherEnd (ga || gb || gc) W

/-- `either<Value>(pa, pb, pc, pd)` -/
def either₄ {ga gb gc gd : Bool} {A B C D : ValueType} (pa : Parser ga A) (ca : Conversion A W)
    (pb : Parser gb B) (cb : Conversion B W) (pc : Parser gc C) (cc : Conversion C W)
    (pd : Parser gd D) (cd : Conversion D W) : Parser (ga || gb || gc || gd) W where
  parse st :=
    pa.ifParse st (fun st v => return .of st (ca.apply v)) <|
    pb.ifParse st (fun st v => return .of st (cb.apply v)) <|
    pc.ifParse st (fun st v => return .of st (cc.apply v)) <|
    pd.ifParse st (fun st v => return .of st (cd.apply v)) <|
    eitherEnd (ga || gb || gc || gd) W

/-- `either<Value>(parsers...)`, the variadic overload. `val` starts as a default-constructed box,
and moving the value out of an empty box throws. -/
def eitherVariadic (ps : Alternatives W gs) : Parser (gs.any id) W where
  parse st := ifConstexpr (gs.any id)
    (do
      let (_, st, val) ← ps.assignFirst st W.default?
      return ⟨st, ← val⟩)
    (do
      let (ok, st, val) ← ps.assignFirst st W.default?
      if ok then return .of st (← val) else return .failed)

/-- Whether `either` of parsers with flags `gs` is always good, in the overload chosen for them. -/
def eitherGood : List Bool → Bool
  | [] => false
  | [g] => g
  | [ga, gb] => ga || gb
  | [ga, gb, gc] => ga || gb || gc
  | [ga, gb, gc, gd] => ga || gb || gc || gd
  | gs => gs.any id

/-- `either<Value>(parsers...)`, by overload resolution. -/
def either : {gs : List Bool} → Alternatives W gs → Parser (eitherGood gs) W
  | _, .nil => either₀ W
  | _, .cons p c .nil => either₁ p c
  | _, .cons pa ca (.cons pb cb .nil) => either₂ pa ca pb cb
  | _, .cons pa ca (.cons pb cb (.cons pc cc .nil)) => either₃ pa ca pb cb pc cc
  | _, .cons pa ca (.cons pb cb (.cons pc cc (.cons pd cd .nil))) => either₄ pa ca pb cb pc cc pd cd
  | _, .cons pa ca (.cons pb cb (.cons pc cc (.cons pd cd (.cons pe ce ps)))) =>
    eitherVariadic (.cons pa ca (.cons pb cb (.cons pc cc (.cons pd cd (.cons pe ce ps)))))

/-! ### `make` -/

/-- `make<T>()` -/
def make₀ (T : ValueType) (value : T) : Parser true T where
  parse st := return PureResult.mk st value

/-- `make<T>(p)`; `construct v` is `T {v}`. -/
def make₁ (construct : V → T) : {g : Bool} → Parser g V → Parser g T
  | true, p =>
    { parse := fun st => do
        let res : PureResult V ← p.parse st
        return PureResult.mk res.state (construct res.value) }
  | false, p =>
    { parse := fun st => p.ifParse st (fun st v => return .of st (construct v)) (return failed) }

/-- The variadic `make<T>(parsers...)`, and `make` for a class template `T`. -/
def makeVariadic (construct : ValuesOf Vs → T) (ps : Parsers gs Vs) : Parser false T where
  parse st := do
    match ← ps.assignAll st with
    | some (st, values) => return .of st (construct values)
    | none => return failed

/-- Whether `make<T>` of parsers with flags `gs` is always good, in the overload chosen for them. -/
def makeGood : List Bool → Bool
  | [] => true
  | [g] => g
  | _ => false

/-- `make<T>(parsers...)`, by overload resolution. -/
def make : {gs : List Bool} → {Vs : List ValueType} → (ValuesOf Vs → T) → Parsers gs Vs →
    Parser (makeGood gs) T
  | _, _, construct, .nil => make₀ T (construct ⟨⟩)
  | _, _, construct, .cons p .nil => make₁ (fun v => construct (v, ⟨⟩)) p
  | _, _, construct, .cons p (.cons q ps) => makeVariadic construct (.cons p (.cons q ps))

/-- `make<tuplet::pair, sep>(first, second)` -/
def makePair (sep : AnyLiteral) (first : Parser g V) (second : Parser g' W) : Parser false (pair V W) :=
  let construct : ValuesOf [V, W] → pair V W := fun (v, w, _) => (v, w)
  makeVariadic construct
    (.cons first (.cons (join (.cons (separator mem [sep]) .nil) second) .nil))

/-! ### Tests and lookahead -/

/-- `test_then(p, func)`; what `func` does with the value is not seen in the result. -/
def testThen (p : Parser g V) (func : V → Unit) : Parser true bool where
  parse st := p.ifParse st
    (fun st v => let () := func v; return PureResult.mk st true)
    (return PureResult.mk st false)

/-- `test(p)`, for a parser of `bool`: the value of its result is copied, the state is `sv`. -/
def test (p : Parser g bool) : Parser true bool where
  parse sv := do return PureResult.mk sv ((← p.parse sv).getValue?.getD false)

/-- `test_lookahead(p)`, with the same body as `test`. -/
def testLookahead (p : Parser g bool) : Parser true bool where
  parse sv := do return PureResult.mk sv ((← p.parse sv).getValue?.getD false)

/-- `lookahead(p)`: both result types let their state be set. -/
def lookahead (p : Parser g V) : Parser g V where
  parse st := do return (← p.parse st).setState st

def tryParse (p : Parser g V) : Parser true V.deduceOptional where
  parse st := p.ifParse st
    (fun st v => return PureResult.mk st (toOptional v))
    (return PureResult.mk st nullopt)

def tryLookahead (p : Parser g V) : Parser true V.deduceOptional where
  parse st := p.ifParse st
    (fun _ v => return PureResult.mk st (toOptional v))
    (return PureResult.mk st nullopt)

/-! ### Repetition -/

/-- One round of the loop of `fold_left`. -/
def foldRound (rest : Parser g W) (op : V → W → V) (x : State × V) :
    Option (Round (State × V) (State × V)) :=
  rest.ifParse x.1
    (fun st v => return .next (st, op x.2 v))
    (return .done x)

def foldLeft (initial : Parser g V) (rest : Parser g' W) (op : V → W → V) : Parser false V where
  parse st := initial.ifParse st
    (fun st value => do
      let (st, value) ← loop (foldRound rest op) (st, value)
      return .of st value)
    (return failed)

/-- One round of the loops of `sequence` and `parse_map`: a separator and an element, whose value
`push` stores; the state is only updated by the element. -/
def separatedRound {A : Type} (sep : Parser g U) (elem : Parser g' V) (push : A → V → A)
    (x : State × A) : Option (Round (State × A) (State × A)) :=
  sep.ifParse x.1
    (fun st _ => elem.ifParse st
      (fun st v => return .next (st, push x.2 v))
      (return .done x))
    (return .done x)

/-- `value.push_back(v)` -/
def pushBack (value : List V) (v : V) : List V := value ++ [v]

/-- `sequence<Sep>(elem)` -/
def sequenceSep (sep : AnyLiteral) (elem : Parser g V) : Parser true (vector V) where
  parse st := elem.ifParse st
    (fun st first => do
      let (st, value) ← loop (separatedRound (separator mem [sep]) elem pushBack) (st, [first])
      return PureResult.mk st value)
    (return PureResult.mk st [])

/-- `match {literal<Opening>, whitespace}` -/
def openParser (opening : AnyLiteral) : Parser false empty :=
  match_ (.cons (literal mem [opening]) (.cons (whitespace mem) .nil))

/-- `match {whitespace, literal<Closing>}` -/
def closeParser (closing : AnyLiteral) : Parser false empty :=
  match_ (.cons (whitespace mem) (.cons (literal mem [closing]) .nil))

def whitespaceEnclose (p : Parser g V) : Parser false V :=
  enclose (whitespace mem) p (whitespace mem)

/-- `sequence<Opening, Separator, Closing>(elem)` -/
def sequenceEnclosed (opening sep closing : AnyLiteral) (elem : Parser g V) :
    Parser false (vector V) where
  parse st := do
    let (ok, st) := updateState (← (openParser mem opening).parse st) st
    if !ok then return .failed
    let (st, value) ← elem.ifParse st
      (fun st first => loop (separatedRound (separator mem [sep]) elem pushBack) (st, [first]))
      (return (st, []))
    let (ok, st) := updateState (← (closeParser mem closing).parse st) st
    if ok then return .of st value else return .failed

/-- `sequence<Opening, Closing>(elem)` -/
def sequenceCommas (opening closing : AnyLiteral) (elem : Parser g V) : Parser false (vector V) :=
  sequenceEnclosed mem opening (.charLiteral (ch ',')) closing elem

/-- `sequence(elem, sep)` -/
def sequence (elem : Parser g V) (sep : Parser g' U) : Parser true (vector V) where
  parse st := elem.ifParse st
    (fun st first => do
      let (st, value) ← loop (separatedRound sep elem pushBack) (st, [first])
      return PureResult.mk st value)
    (return PureResult.mk st [])

/-- A map class, as far as `parse_map` uses it: an empty map, and `emplace`, which keeps an entry
that exists. -/
class EmplaceMap (M K X : Type) where
  empty : M
  emplace : M → K → X → M
  /-- The value a key is bound to. -/
  find? : M → K → Option X
  find?_empty : ∀ k, find? empty k = none
  find?_emplace_self : ∀ m k x, find? (emplace m k x) k = (find? m k).or (some x)
  find?_emplace_of_ne : ∀ m k k' x, k' ≠ k → find? (emplace m k x) k' = find? m k'

/-- A map class as a value type. -/
abbrev mapType (M K X : Type) [EmplaceMap M K X] : ValueType :=
  type M (some (EmplaceMap.empty K X))

/-- `auto& [key, val] = entry; map.emplace(std::move(key), std::move(val));` -/
def emplaceEntry {M : Type} [EmplaceMap M V W] (map : M) (entry : V × W) : M :=
  EmplaceMap.emplace map entry.1 entry.2

/-- `parse_map<Map, Opening, ElemSeparator, KeyValueSeparator, Closing>(key, val)` -/
def parseMap (M : Type) [EmplaceMap M V W] (opening elemSep keyValueSep closing : AnyLiteral)
    (key : Parser g V) (val : Parser g' W) : Parser false (mapType M V W) where
  parse st := do
    let elem := makePair mem keyValueSep key val
    let (ok, st) := updateState (← (openParser mem opening).parse st) st
    if !ok then return .failed
    let (st, map) ← elem.ifParse st
      (fun st first => loop (separatedRound (separator mem [elemSep]) elem emplaceEntry)
        (st, emplaceEntry (EmplaceMap.empty V W : M) first))
      (return (st, (EmplaceMap.empty V W : M)))
    let (ok, st) := updateState (← (closeParser mem closing).parse st) st
    if ok then return .of st map else return .failed

/-- `parse_map<Map>(key, val)` -/
def parseMapBraces (M : Type) [EmplaceMap M V W] (key : Parser g V) (val : Parser g' W) :
    Parser false (mapType M V W) :=
  parseMap mem M (.charLiteral (ch '{')) (.charLiteral (ch ',')) (.charLiteral (ch ':'))
    (.charLiteral (ch '}')) key val

/-! ### Recursion -/

/-- `parsers::recurse::operator()` and `parse`, with calls nested at most `depth` deep: `func` is
applied to a reference to the parser itself at every call. -/
def recurseWithin (func : Parser false T → Parser g T) : Nat → State → Option (Result T)
  | 0, _ => none
  | depth + 1, st => do
    let refSelf : Parser false T := ⟨recurseWithin func depth⟩
    let parser := func refSelf
    return (← parser.parse st).toResult

/-- `recurse<T>(func)` for a `func` with state: its result at whatever depth its calls nest. -/
def recurse (func : Parser false T → Parser g T) : Parser false T where
  parse st := search fun depth => recurseWithin func depth st

/-- `parsers::recurse_constant::parse`, with calls nested at most `depth` deep: `parser` is a
constant. -/
def recurseConstantWithin (func : Parser false T → Parser g T) : Nat → Parser false T
  | 0 => ⟨fun _ => none⟩
  | depth + 1 =>
    let parser := func (recurseConstantWithin func depth)
    ⟨fun st => do return (← parser.parse st).toResult⟩

/-- `recurse<T>(func)` for a stateless `func`. -/
def recurseConstant (func : Parser false T → Parser g T) : Parser false T where
  parse st := search fun depth => (recurseConstantWithin func depth).parse st

end Noam
