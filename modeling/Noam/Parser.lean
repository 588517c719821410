import Noam.Result
import Noam.Attempt

/-!
# Parsers and the operations that step through them (`parser.hpp`, `util/helpers.hpp`)

A parser is its `parse` function. Running it has no result (`none`) when it does not return: in a
loop that does not end, or where control runs off the end of a function.
-/

namespace Noam
open GetResult

/-- `parser<Func>`, where `parse` returns a `get_result_t<V, good>`. -/
structure Parser (good : Bool) (V : ValueType) : Type 1 where
  parse : State → Option (GetResult V good)

variable {V W T : ValueType} {g g' : Bool} {gs : List Bool} {Vs : List ValueType} {β : Type}

/-- `if (auto r = p.parse(st)) yes else no`, where `yes` uses `r.get_state()` and
`r.get_value()`. -/
def Parser.ifParse (p : Parser g V) (st : State) (yes : State → V → Option β) (no : Option β) :
    Option β := do
  match (← p.parse st).outcome with
  | some (st', v) => yes st' v
  | none => no

/-- `p.read(st)`: `st` after it, and the result it returns. -/
def Parser.read : {g : Bool} → Parser g V → State → Option (State × GetResult V g)
  | true, p, st => do
    let res ← p.parse st
    return (res.getState, res)
  | false, p, st => do
    let res ← p.parse st
    if res.toBool then return (res.getState, res) else return (st, failed)

/-- `update_state(r, st)`: its answer and `st` after it. -/
def updateState : {g : Bool} → GetResult V g → State → Bool × State
  | true, r, _ => (true, r.getState)
  | false, r, st => if r.toBool then (true, r.getState) else (false, st)

/-- `parse_assign(st, p, r)`: its answer, and `st` and `r` after it. -/
def parseAssign (st : State) : {g : Bool} → Parser g V → Option (Bool × State × GetResult V g)
  | true, p => do
    let r ← p.parse st
    return (true, r.getState, r)
  | false, p => do
    let r ← p.parse st
    if r.toBool then return (true, r.getState, r) else return (false, st, r)

/-- A conversion between value types: none between equal types, implicit between others. -/
inductive Conversion : ValueType → ValueType → Type 1 where
  | same {V : ValueType} : Conversion V V
  | convert {V W : ValueType} (f : V → W) : Conversion V W

def Conversion.apply : Conversion V W → V → W
  | same, v => v
  | convert f, v => f v

/-- `result<W>::operator=` for a result of another type. -/
def Result.assignFrom (conv : Conversion V W) : {g : Bool} → GetResult V g → Result W
  | true, r => .of (PureResult.state r) (conv.apply (PureResult.value r))
  | false, r =>
    match r.outcome with
    | some (st, v) => .of st (conv.apply v)
    | none => .failed

/-- `parse_assign(st, p, r)` for an `r` of another type, a `result<W>`. -/
def parseAssignFrom (st : State) (conv : Conversion V W) :
    {g : Bool} → Parser g V → Option (Bool × State × Result W)
  | true, p => do
    let r := Result.assignFrom conv (← p.parse st)
    return (true, r.state, r)
  | false, p => do
    let r := Result.assignFrom conv (← p.parse st)
    if r.good then return (true, r.state, r) else return (false, st, r)

/-- `box_if_necessary_t<Value>`: a variable of the value type, or a box for it that may be empty. -/
abbrev Box (V : ValueType) := Option V

/-- `parse_assign_value(st, p, v)`: its answer, and `st` and `v` after it. -/
def parseAssignValue (st : State) :
    {g : Bool} → Parser g V → Conversion V W → Box W → Option (Bool × State × Box W)
  | true, p, conv, _ => do
    let r ← p.parse st
    return (true, r.getState, r.getValue?.map conv.apply)
  | false, p, conv, v => do
    let r ← p.parse st
    if r.toBool then return (true, r.getState, r.getValue?.map conv.apply)
    else return (false, st, v)

/-- `result<V>` for any result type: a parser whose results are all to be tested. -/
def Parser.toFallible (p : Parser g V) : Parser false V where
  parse st := (p.parse st).map toResult

/-! ### Lists of parsers -/

/-- Parsers with result flags `gs` and value types `Vs`. -/
inductive Parsers : List Bool → List ValueType → Type 1 where
  | nil : Parsers [] []
  | cons {g : Bool} {V : ValueType} {gs : List Bool} {Vs : List ValueType} (p : Parser g V)
      (ps : Parsers gs Vs) : Parsers (g :: gs) (V :: Vs)

/-- The values of a list of parsers. -/
@[reducible] def ValuesOf : List ValueType → Type
  | [] => Unit
  | V :: Vs => V × ValuesOf Vs

namespace Parsers

/-- `(update_state(parsers.parse(st), st), ...)` -/
def updateAll {gs : List Bool} {Vs : List ValueType} : Parsers gs Vs → State → Option State
  | nil, st => return st
  | cons p ps, st => do ps.updateAll (updateState (← p.parse st) st).2

/-- `(update_state(parsers.parse(st), st) && ...)` -/
def updateWhileGood {gs : List Bool} {Vs : List ValueType} :
    Parsers gs Vs → State → Option (Bool × State)
  | nil, st => return (true, st)
  | cons p ps, st => do
    let (ok, st) := updateState (← p.parse st) st
    if ok then ps.updateWhileGood st else return (false, st)

/-- `(parse_assign(st, parsers, results) && ...)`: the state and the values of the results when all
succeeded. -/
def assignAll {gs : List Bool} {Vs : List ValueType} :
    Parsers gs Vs → State → Option (Option (State × ValuesOf Vs))
  | nil, st => return some (st, ⟨⟩)
  | cons p ps, st => do
    let (ok, st, r) ← parseAssign st p
    match ok, r.getValue? with
    | true, some v => return (← ps.assignAll st).map fun (st, vs) => (st, (v, vs))
    | _, _ => return none

end Parsers

/-- Alternatives of a choice, with the conversions of their values to `W`. -/
inductive Alternatives (W : ValueType) : List Bool → Type 1 where
  | nil : Alternatives W []
  | cons {g : Bool} {V : ValueType} {gs : List Bool} (p : Parser g V) (conv : Conversion V W)
      (ps : Alternatives W gs) : Alternatives W (g :: gs)

/-- `(parse_assign_value(st, p, val) || ...)` -/
def Alternatives.assignFirst {gs : List Bool} :
    Alternatives W gs → State → Box W → Option (Bool × State × Box W)
  | nil, st, val => return (false, st, val)
  | cons p conv ps, st, val => do
    let (ok, st, val) ← parseAssignValue st p conv val
    if ok then return (true, st, val) else ps.assignFirst st val

/-! ### What can be observed of a parser -/

/-- The outcome of `p.parse(st)`. -/
def Parser.run (p : Parser g V) : Attempt State V := fun st => (p.parse st).map outcome

/-- The parser that returns `{st, v}` or `{}` as an attempt says. -/
def Parser.ofAttempt (g : Bool) (A : Attempt State V) : Parser g V where
  parse st := do ofOutcome (← A st)

/-- Every success on a non-null state leaves a non-null one. -/
def Parser.KeepsNonNull (p : Parser g V) : Prop := Attempt.Keeps (·.good = true) (·.good = true) p.run

def Parsers.KeepNonNull : {gs : List Bool} → {Vs : List ValueType} → Parsers gs Vs → Prop
  | _, _, nil => True
  | _, _, cons p ps => p.KeepsNonNull ∧ ps.KeepNonNull

def Alternatives.KeepNonNull : {gs : List Bool} → Alternatives W gs → Prop
  | _, nil => True
  | _, cons p _ ps => p.KeepsNonNull ∧ ps.KeepNonNull

/-- Every success on a valid state leaves a suffix of it. -/
def Parser.SuffixReturning (p : Parser g V) : Prop :=
  ∀ st, st.Valid → ∀ st' v, p.run st = some (some (st', v)) → st'.Suffix st

theorem Parser.ext {p q : Parser g V} (h : ∀ st, p.parse st = q.parse st) : p = q := by
  cases p; cases q; congr 1; exact funext h

theorem Parser.ifParse_eq (p : Parser g V) (st : State) (yes : State → V → Option β)
    (no : Option β) :
    p.ifParse st yes no = (p.run st).bind fun
      | some (st', v) => yes st' v
      | none => no := by
  rw [ifParse, run, Option.bind_map]; rfl

/-- A parser that is always good never fails. -/
theorem Parser.neverFails (p : Parser true V) : Attempt.NeverFails p.run := by
  intro st h
  obtain ⟨r, -, hr⟩ := Option.map_eq_some_iff.1 h
  cases hr

theorem Parser.kept_of_run {p : Parser g V} {st st' : State} {v : V}
    (h : p.run st = some (some (st', v))) : kept g V st' = true := by
  obtain ⟨r, -, hr⟩ := Option.map_eq_some_iff.1 h
  obtain ⟨hb, rfl, -⟩ := outcome_eq_some hr
  exact kept_of_toBool hb

theorem Parser.run_of_parse {p : Parser g V} {st : State} {r : GetResult V g}
    (h : p.parse st = some r) : p.run st = some r.outcome := by
  rw [run, h]; rfl

theorem Parser.parse_of_run {p : Parser g V} {st st' : State} {v : V}
    (h : p.run st = some (some (st', v))) :
    ∃ r, p.parse st = some r ∧ r.toBool = true ∧ r.getState = st' ∧ r.getValue? = some v := by
  obtain ⟨r, hp, hr⟩ := Option.map_eq_some_iff.1 h
  exact ⟨r, hp, outcome_eq_some hr⟩

/-- The outcome of a returned `{st, v}` or `{}`. -/
def settle (g : Bool) (x : Option (State × V)) : Option (Option (State × V)) :=
  match g, x with
  | g, some (st, v) => some (if kept g V st then some (st, v) else none)
  | true, none => none
  | false, none => some none

theorem settle_of_good {st : State} (h : st.good = true) (v : V) :
    settle g (some (st, v)) = some (some (st, v)) := by
  rw [settle, if_pos (kept_of_good h)]

theorem run_ofAttempt (A : Attempt State V) (st : State) :
    (Parser.ofAttempt g A).run st = (A st).bind (settle g) := by
  rcases h : A st with _ | _ | ⟨st', v⟩
  · simp [Parser.run, Parser.ofAttempt, h]
  · cases g <;> simp [Parser.run, Parser.ofAttempt, h, ofOutcome, settle]
  · cases g <;> simp [Parser.run, Parser.ofAttempt, h, ofOutcome, settle]

theorem run_ofAttempt_run (p : Parser g V) : (Parser.ofAttempt g p.run).run = p.run := by
  funext st
  rw [run_ofAttempt]
  rcases h : p.run st with _ | _ | ⟨st', v⟩
  · rfl
  · cases g
    · rfl
    · exact absurd h (p.neverFails st)
  · simp [settle, Parser.kept_of_run h]

/-- A parser given by an attempt does what the attempt does where that leaves a state that is not
null. -/
theorem run_ofAttempt_eq {A : Attempt State V} {st : State}
    (hA : ∀ st' v, A st = some (some (st', v)) → st'.good = true) (hg : g = true → A st ≠ some none) :
    (Parser.ofAttempt g A).run st = A st := by
  rw [run_ofAttempt]
  rcases hs : A st with _ | _ | ⟨st', v⟩
  · rfl
  · cases g
    · rfl
    · exact absurd hs (hg rfl)
  · exact settle_of_good (hA st' v hs) v

theorem run_ofAttempt_of_good {A : Attempt State V} (hk : Attempt.Keeps (·.good = true) (·.good = true) A)
    (hA : g = true → Attempt.NeverFails A) {st : State} (h : st.good = true) :
    (Parser.ofAttempt g A).run st = A st :=
  run_ofAttempt_eq (fun st' v hs => hk st st' v h hs) fun hg => hA hg st

theorem run_toFallible (p : Parser g V) (st : State) :
    p.toFallible.run st = (p.run st).bind (settle false) := by
  show ((p.parse st).map GetResult.toResult).map outcome = _
  rcases hp : p.parse st with _ | r
  · simp [Parser.run, hp]
  rw [Parser.run_of_parse hp, Option.map_some, Option.map_some, Option.bind_some]
  cases g
  · show some r.outcome = _
    rcases ho : r.outcome with _ | ⟨st', v⟩
    · rfl
    · obtain ⟨hb, rfl, -⟩ := outcome_eq_some ho
      rw [settle, if_pos (kept_of_toBool hb)]
  · show some (outcome (g := false) (of (PureResult.state r) (PureResult.value r))) = _
    rw [outcome_of]; rfl

theorem toFallible_of_fallible (p : Parser false V) : p.toFallible = p := by
  refine Parser.ext fun st => ?_
  show Option.map id (p.parse st) = _
  rw [Option.map_id]; rfl

end Noam
