import Noam.Coroutine
import Noam.Lookahead

/-!
# The operations that step through a state (`parser.hpp`, `util/helpers.hpp`, `await_parser.hpp`)

`parser::read`, `update_state`, `parse_assign`, `parse_assign_value` and `await_ready` each test the
result of a parser and move the state variable on when it is good. They are one step (`Advance`), so a
sequence of them over one state variable is the run of the parsers among them that succeed.
-/

namespace Noam
open GetResult ValueType Attempt

variable {V W : ValueType} {g : Bool} {st st' : State}

/-- What each of the operations does: whether `p` succeeds from `st`, the state variable afterwards
and the value of `p`. -/
def Parser.advance (p : Parser g V) (st : State) : Option (Bool × State × Option V) :=
  (p.run st).map fun
    | some (st', v) => (true, st', some v)
    | none => (false, st, none)

/-- The value that a result delivers together with a verdict. -/
def delivered (ok : Bool) (r : GetResult V g) : Option V := if ok then r.getValue? else none

/-- Every operation is the one step, and on failure leaves the variables as they were. -/
structure OneStep (p : Parser g V) (st : State) : Prop where
  read : ((p.read st).map fun (st, r) => (r.toBool, st, delivered r.toBool r)) = p.advance st
  updateState : ((p.parse st).map fun r =>
    ((updateState r st).1, (updateState r st).2, delivered (updateState r st).1 r)) = p.advance st
  parseAssign : ((parseAssign st p).map fun (ok, st, r) => (ok, st, delivered ok r)) = p.advance st
  parseAssignFrom : ∀ {W : ValueType} (conv : Conversion V W),
    ((parseAssignFrom st conv p).map fun (ok, st, r) => (ok, st, delivered (g := false) ok r)) =
      (p.advance st).map fun (ok, st, v) => (ok, st, v.map conv.apply)
  parseAssignValue : ∀ {W : ValueType} (conv : Conversion V W) (value : Box W),
    parseAssignValue st p conv value =
      (p.advance st).map fun (ok, st, v) => (ok, st, if ok then v.map conv.apply else value)
  awaitReady : ((awaitReady p st).map fun (ok, st, r) => (ok, st, delivered ok r)) = p.advance st

theorem Parser.advance_of_parse {p : Parser g V} {r : GetResult V g} (h : p.parse st = some r) :
    p.advance st = some (r.toBool, if r.toBool then r.getState else st, delivered r.toBool r) := by
  rw [Parser.advance, Parser.run_of_parse h, delivered]
  rcases ho : r.outcome with _ | ⟨st', v⟩
  · have hb : r.toBool = false := by rw [toBool_eq, ho]; rfl
    simp [hb]
  · obtain ⟨hb, rfl, hv⟩ := outcome_eq_some ho
    simp [hb, hv]

theorem Parser.advance_eq_none {p : Parser g V} (h : p.parse st = none) : p.advance st = none := by
  rw [Parser.advance, Parser.run, h]; rfl

/-! ### The operations -/

theorem read_advances (p : Parser g V) (st : State) :
    ((p.read st).map fun (st, r) => (r.toBool, st, delivered r.toBool r)) = p.advance st := by
  rcases h : p.parse st with _ | r
  · rw [Parser.advance_eq_none h]
    cases g <;> simp [Parser.read, h]
  · rw [Parser.advance_of_parse h]
    cases g
    · cases hb : r.toBool
      · simp [Parser.read, h, hb, toBool_failed, delivered]
      · simp [Parser.read, h, hb]
    · have hb : r.toBool = true := rfl
      simp [Parser.read, h, hb]

theorem updateState_advances (p : Parser g V) (st : State) :
    ((p.parse st).map fun r =>
      ((updateState r st).1, (updateState r st).2, delivered (updateState r st).1 r)) = p.advance st := by
  rcases h : p.parse st with _ | r
  · rw [Parser.advance_eq_none h]; rfl
  · rw [Parser.advance_of_parse h]
    cases g
    · cases hb : r.toBool <;> simp [updateState, hb]
    · rfl

theorem parseAssign_advances (p : Parser g V) (st : State) :
    ((parseAssign st p).map fun (ok, st, r) => (ok, st, delivered ok r)) = p.advance st := by
  rcases h : p.parse st with _ | r
  · rw [Parser.advance_eq_none h]
    cases g <;> simp [parseAssign, h]
  · rw [Parser.advance_of_parse h]
    cases g
    · cases hb : r.toBool <;> simp [parseAssign, h, hb]
    · have hb : r.toBool = true := rfl
      simp [parseAssign, h, hb]

theorem parseAssignValue_advances (p : Parser g V) (st : State) (conv : Conversion V W) (value : Box W) :
    parseAssignValue st p conv value =
      (p.advance st).map fun (ok, st, v) => (ok, st, if ok then v.map conv.apply else value) := by
  rcases h : p.parse st with _ | r
  · rw [Parser.advance_eq_none h]
    cases g <;> simp [parseAssignValue, h]
  · rw [Parser.advance_of_parse h]
    cases g
    · cases hb : r.toBool <;> simp [parseAssignValue, h, hb, delivered]
    · have hb : r.toBool = true := rfl
      simp [parseAssignValue, h, hb, delivered]

theorem awaitReady_advances (p : Parser g V) (st : State) :
    ((awaitReady p st).map fun (ok, st, r) => (ok, st, delivered ok r)) = p.advance st := by
  rcases h : p.parse st with _ | r
  · rw [Parser.advance_eq_none h, awaitReady, h]; rfl
  · rw [Parser.advance_of_parse h]
    cases hb : r.toBool <;> simp [awaitReady, h, hb]

/-- A result that is assigned one of another type is good when that one is, and its state is not
null. -/
theorem parseAssignFrom_advances (p : Parser g V) (hp : p.KeepsNonNull) (hst : st.good = true)
    (conv : Conversion V W) :
    ((parseAssignFrom st conv p).map fun (ok, st, r) => (ok, st, delivered (g := false) ok r)) =
      (p.advance st).map fun (ok, st, v) => (ok, st, v.map conv.apply) := by
  rcases h : p.parse st with _ | r
  · rw [Parser.advance_eq_none h]
    cases g <;> simp [parseAssignFrom, h]
  · rw [Parser.advance, Parser.run_of_parse h]
    cases g
    · rcases ho : r.outcome with _ | ⟨st', v⟩
      · have hfailed : (Result.failed : Result W).good = false := toBool_failed
        simp [parseAssignFrom, h, Result.assignFrom, ho, hfailed, delivered]
      · have hgood : st'.good = true := hp st st' v hst (by rw [Parser.run_of_parse h, ho])
        have hof : (Result.of st' (conv.apply v)).good = true :=
          (toBool_of (g := false) _ _).trans (kept_of_good hgood)
        simp [parseAssignFrom, h, Result.assignFrom, ho, hof, delivered]
        exact ⟨rfl, rfl⟩
    · have hout : r.outcome = some (PureResult.state r, PureResult.value r) := rfl
      simp [parseAssignFrom, h, Result.assignFrom, delivered, hout]
      exact ⟨rfl, rfl⟩

theorem oneStep (p : Parser g V) (hp : p.KeepsNonNull) (hst : st.good = true) : OneStep p st where
  read := read_advances p st
  updateState := updateState_advances p st
  parseAssign := parseAssign_advances p st
  parseAssignFrom := parseAssignFrom_advances p hp hst
  parseAssignValue := parseAssignValue_advances p st
  awaitReady := awaitReady_advances p st

/-! ### Sequences over one state variable -/

/-- One of the operations, with the variable that it assigns to. -/
inductive StateOp (V : ValueType) : Type 1 where
  | read
  | updateState
  | parseAssign
  | parseAssignFrom {W : ValueType} (conv : Conversion V W)
  | parseAssignValue {W : ValueType} (conv : Conversion V W) (value : Box W)
  | awaitReady

/-- Whether the operation reports success, and the state variable after it. -/
def StateOp.perform (p : Parser g V) (st : State) : StateOp V → Option (Bool × State)
  | read => (p.read st).map fun (st, r) => (r.toBool, st)
  | updateState => (p.parse st).map fun r => Noam.updateState r st
  | parseAssign => (Noam.parseAssign st p).map fun (ok, st, _) => (ok, st)
  | parseAssignFrom conv => (Noam.parseAssignFrom st conv p).map fun (ok, st, _) => (ok, st)
  | parseAssignValue conv value => (Noam.parseAssignValue st p conv value).map fun (ok, st, _) => (ok, st)
  | awaitReady => (Noam.awaitReady p st).map fun (ok, st, _) => (ok, st)

/-- A parser, and the operation that applies it to the shared state variable. -/
structure SharedStep where
  parser : AnyParser
  op : StateOp parser.value

/-- The steps one after the other, also after failures: what each reports, and the state variable in
the end. -/
def performAll : State → List SharedStep → Option (List Bool × State)
  | st, [] => some ([], st)
  | st, s :: steps => do
    let (ok, st) ← s.op.perform s.parser.parser st
    let (oks, st) ← performAll st steps
    return (ok :: oks, st)

/-- A run of the parsers of the steps that goes on after failures, with a verdict for each of them. The
operations of the steps have no part in it. -/
inductive Performed : State → List SharedStep → List Bool → State → Prop
  | nil {st : State} : Performed st [] [] st
  | success {st st₁ st' : State} {s : SharedStep} {steps : List SharedStep} {oks : List Bool}
      {v : s.parser.value} (hrun : s.parser.parser.run st = some (some (st₁, v)))
      (h : Performed st₁ steps oks st') : Performed st (s :: steps) (true :: oks) st'
  | failure {st st' : State} {s : SharedStep} {steps : List SharedStep} {oks : List Bool}
      (hrun : s.parser.parser.run st = some none) (h : Performed st steps oks st') :
      Performed st (s :: steps) (false :: oks) st'

/-- The parsers one after the other, each of which succeeds. -/
inductive Applied : State → List AnyParser → State → Prop
  | nil {st : State} : Applied st [] st
  | cons {st st₁ st' : State} {p : AnyParser} {ps : List AnyParser} {v : p.value}
      (hrun : p.parser.run st = some (some (st₁, v))) (h : Applied st₁ ps st') : Applied st (p :: ps) st'

/-- The parsers whose steps reported success. -/
def succeeded (steps : List SharedStep) (oks : List Bool) : List AnyParser :=
  ((steps.zip oks).filter (·.2)).map (·.1.parser)

/-- Whichever operation it is, it reports what the parser does. -/
theorem perform_eq (p : Parser g V) (hp : p.KeepsNonNull) (hst : st.good = true) (op : StateOp V) :
    op.perform p st = (p.advance st).map fun (ok, st, _) => (ok, st) := by
  cases op with
  | read => rw [← read_advances, Option.map_map]; rfl
  | updateState => rw [← updateState_advances, Option.map_map]; rfl
  | parseAssign => rw [← parseAssign_advances, Option.map_map]; rfl
  | parseAssignFrom conv =>
    have h := congrArg (Option.map fun (x : Bool × State × Option _) => (x.1, x.2.1))
      (parseAssignFrom_advances p hp hst conv)
    rw [Option.map_map, Option.map_map] at h
    exact h
  | parseAssignValue conv value => rw [StateOp.perform, parseAssignValue_advances, Option.map_map]; rfl
  | awaitReady => rw [← awaitReady_advances, Option.map_map]; rfl

theorem perform_eq_some_iff {p : Parser g V} (hp : p.KeepsNonNull) (hst : st.good = true)
    {op : StateOp V} {ok : Bool} : op.perform p st = some (ok, st') ↔
      (ok = true ∧ ∃ v, p.run st = some (some (st', v))) ∨
        (ok = false ∧ p.run st = some none ∧ st' = st) := by
  rw [perform_eq p hp hst op, Parser.advance, Option.map_map]
  rcases p.run st with _ | _ | ⟨st₁, v⟩
  · simp
  · cases ok <;> simp [eq_comm]
  · cases ok <;> simp

theorem performAll_cons {s : SharedStep} {steps : List SharedStep} {oks : List Bool} :
    performAll st (s :: steps) = some (oks, st') ↔
      ∃ ok st₁ rest, s.op.perform s.parser.parser st = some (ok, st₁) ∧
        performAll st₁ steps = some (rest, st') ∧ oks = ok :: rest := by
  rw [performAll]
  constructor
  · intro h
    obtain ⟨⟨ok, st₁⟩, hs, h⟩ := Option.bind_eq_some_iff.1 h
    obtain ⟨⟨rest, st₂⟩, hrest, h⟩ := Option.bind_eq_some_iff.1 h
    cases h
    exact ⟨ok, st₁, rest, hs, hrest, rfl⟩
  · rintro ⟨ok, st₁, rest, hs, hrest, rfl⟩
    simp [hs, hrest]

theorem performAll_eq_some_iff {steps : List SharedStep} {oks : List Bool}
    (hsteps : ∀ s ∈ steps, s.parser.parser.KeepsNonNull) (hst : st.good = true) :
    performAll st steps = some (oks, st') ↔ Performed st steps oks st' := by
  induction steps generalizing st oks with
  | nil =>
    constructor
    · intro h; cases h; exact .nil
    · intro h; cases h; rfl
  | cons s steps ih =>
    have hs := hsteps s (by simp)
    have hrest : ∀ s ∈ steps, s.parser.parser.KeepsNonNull := fun s hs => hsteps s (by simp [hs])
    rw [performAll_cons]
    constructor
    · rintro ⟨ok, st₁, oks', hperform, hall, rfl⟩
      rcases (perform_eq_some_iff hs hst).1 hperform with ⟨rfl, v, hrun⟩ | ⟨rfl, hrun, rfl⟩
      · exact .success hrun ((ih hrest (hs st st₁ v hst hrun)).1 hall)
      · exact .failure hrun ((ih hrest hst).1 hall)
    · intro h
      cases h with
      | @success _ st₁ _ _ _ oks' v hrun h =>
        exact ⟨true, st₁, oks', (perform_eq_some_iff hs hst).2 (.inl ⟨rfl, v, hrun⟩),
          (ih hrest (hs st st₁ v hst hrun)).2 h, rfl⟩
      | @failure _ _ _ _ oks' hrun h =>
        exact ⟨false, st, oks', (perform_eq_some_iff hs hst).2 (.inr ⟨rfl, hrun, rfl⟩),
          (ih hrest hst).2 h, rfl⟩

/-- The failures have no part in the state that a run ends in. -/
theorem Performed.applied {steps : List SharedStep} {oks : List Bool} (h : Performed st steps oks st') :
    Applied st (succeeded steps oks) st' := by
  induction h with
  | nil => exact .nil
  | success hrun _ ih => exact .cons hrun ih
  | failure _ _ ih => exact ih

/-- Every operation that steps through a state is the same step, and leaves everything as it was when
the parser fails. A sequence of any of them over one state variable, which goes on after failures, ends
in the state that the parsers that succeed lead to. -/
theorem steps_are_atomic :
    (∀ {g : Bool} {V : ValueType} (p : Parser g V) (st : State), p.KeepsNonNull → st.good = true →
      OneStep p st) ∧
    ∀ (steps : List SharedStep) (st : State), (∀ s ∈ steps, s.parser.parser.KeepsNonNull) →
      st.good = true → ∀ oks st', performAll st steps = some (oks, st') ↔
        Performed st steps oks st' ∧ Applied st (succeeded steps oks) st' := by
  refine ⟨fun p st hp hst => oneStep p hp hst, fun steps st hsteps hst oks st' => ?_⟩
  rw [performAll_eq_some_iff hsteps hst]
  exact ⟨fun h => ⟨h, h.applied⟩, fun h => h.1⟩

/-- `parse_bool` fails on a blank, `whitespace` moves on, and then `parse_bool` succeeds. -/
theorem steps_are_atomic_bool :
    let mem := Memory.ofText [ch ' ', ch 't', ch 'r', ch 'u', ch 'e']
    let steps : List SharedStep := [⟨⟨_, _, boolParser mem⟩, .parseAssign⟩, ⟨⟨_, _, whitespace mem⟩, .read⟩,
      ⟨⟨_, _, boolParser mem⟩, .parseAssignValue .same none⟩]
    OneStep (boolParser mem) (State.ofLength 5) ∧
      performAll (State.ofLength 5) steps = some ([false, true, true], ⟨6, 6⟩) := by
  intro mem steps
  have hbool : (boolParser mem).KeepsNonNull := boolParser_advances.keepsNonNull
  have hblank : (whitespace mem).KeepsNonNull := (zeroOrMoreChars_advances _).keepsNonNull
  have hst : (State.ofLength 5).good = true := rfl
  obtain ⟨hone, hall⟩ := steps_are_atomic
  have hmove : (whitespace mem).run (State.ofLength 5) = some (some (⟨2, 6⟩, ())) := rfl
  have htrue : (boolParser mem).run ⟨2, 6⟩ = some (some (⟨6, 6⟩, true)) := rfl
  have hrun : Performed (State.ofLength 5) steps [false, true, true] ⟨6, 6⟩ :=
    .failure rfl (.success hmove (.success htrue .nil))
  refine ⟨hone _ _ hbool hst, (hall steps _ (fun s hs => ?_) hst _ _).2 ⟨hrun, hrun.applied⟩⟩
  simp only [steps, List.mem_cons, List.not_mem_nil, or_false] at hs
  rcases hs with rfl | rfl | rfl
  exacts [hbool, hblank, hbool]

end Noam
