import Noam.State
import Noam.Loop

/-!
# Value and result types (`result_types.hpp`, `util/value_wrappers.hpp`)

`pure_result<Value>` is a state and a value and always good. `result<Value>` is two types: for a
default-constructible `Value` it holds a state and a value and is good when the state is not null;
for any other it holds a state and an optional value and is good when there is one.
`get_result_t<Value, good>` is the one or the other, and every parser returns one of the two, so
the flag `good` in the type of a parser is the compile-time `parser_always_good_v`.
-/

namespace Noam

/-- A C++ value type: `std::optional` of one, or another type with its values and, when
`std::is_default_constructible_v`, the value of `Value()`. -/
inductive ValueType : Type 1 where
  | type (values : Type) (default? : Option values)
  | optional (V : ValueType)

namespace ValueType

@[reducible] def Values : ValueType → Type
  | type values _ => values
  | optional V => Option V.Values

instance : CoeSort ValueType Type := ⟨Values⟩

/-- `Value()`, when the type is default-constructible. -/
def default? : (V : ValueType) → Option V
  | type _ d => d
  | optional _ => some none

/-- `default_constructible<Value>` -/
def defaultConstructible (V : ValueType) : Bool := V.default?.isSome

/-- The type that class template argument deduction gives `std::optional {v}`: an optional is
copied, any other value is wrapped. -/
def deduceOptional : ValueType → ValueType
  | optional V => optional V
  | type values d => optional (type values d)

/-- `std::optional {v}` -/
def toOptional : {V : ValueType} → V → V.deduceOptional
  | optional _, v => v
  | type _ _, v => some v

/-- `std::nullopt` as a value of the deduced optional. -/
def nullopt : {V : ValueType} → V.deduceOptional
  | optional _ => none
  | type _ _ => none

abbrev empty : ValueType := type Unit (some ())
abbrev bool : ValueType := type Bool (some false)
abbrev sizeT : ValueType := type Nat (some 0)
/-- `std::string_view`, as the characters it views. -/
abbrev stringView : ValueType := type (List UInt8) (some [])
/-- `std::string` -/
abbrev string : ValueType := type (List UInt8) (some [])
/-- `noam::state` as a value. -/
abbrev state : ValueType := type State (some nullState)
/-- `std::vector` -/
abbrev vector (V : ValueType) : ValueType := type (List V) (some [])
/-- `tuplet::pair` -/
abbrev pair (V W : ValueType) : ValueType :=
  type (V × W) (V.default?.bind fun v => W.default?.map fun w => (v, w))

end ValueType

structure PureResult (V : ValueType) where
  state : State
  value : V

/-- `result<Value>`; `value` is always there for a default-constructible `Value`. -/
structure Result (V : ValueType) where
  state : State
  value : Option V
  value_init : V.default?.isSome → value.isSome

namespace Result
variable {V : ValueType}

/-- `operator bool`: of the state for a default-constructible `Value`, of the optional else. -/
def good (r : Result V) : Bool :=
  if V.defaultConstructible then r.state.good else r.value.isSome

/-- `result<Value> {st, v}` -/
def of (st : State) (v : V) : Result V := ⟨st, some v, fun _ => rfl⟩

/-- `result<Value> {}` -/
def failed : Result V := ⟨nullState, V.default?, id⟩

end Result

/-- `get_result_t<Value, good>` -/
def GetResult (V : ValueType) : Bool → Type
  | true => PureResult V
  | false => Result V

namespace GetResult
variable {V : ValueType}

/-- `operator bool` -/
def toBool : {g : Bool} → GetResult V g → Bool
  | true, _ => true
  | false, r => Result.good r

/-- `get_state()` -/
def getState : {g : Bool} → GetResult V g → State
  | true, r => PureResult.state r
  | false, r => Result.state r

/-- `get_value()`, when there is one. -/
def getValue? : {g : Bool} → GetResult V g → Option V
  | true, r => some (PureResult.value r)
  | false, r => Result.value r

/-- `set_state(st)` -/
def setState : {g : Bool} → GetResult V g → State → GetResult V g
  | true, r, st => PureResult.mk st (PureResult.value r)
  | false, r, st => Result.mk st (Result.value r) (Result.value_init r)

/-- `{}` -/
def failed : GetResult V false := Result.failed

/-- `{st, v}` -/
def of : {g : Bool} → State → V → GetResult V g
  | true, st, v => PureResult.mk st v
  | false, st, v => Result.of st v

/-- `pure_result::operator result<value_type>` -/
def toResult : {g : Bool} → GetResult V g → GetResult V false
  | true, r => Result.of (PureResult.state r) (PureResult.value r)
  | false, r => r

/-- What can be observed of a result: the state and value of a good one. -/
def outcome {g : Bool} (r : GetResult V g) : Option (State × V) :=
  if r.toBool then r.getValue?.map fun v => (r.getState, v) else none

/-- A function that returns `get_result_t` with an outcome: it returns `{st, v}`, or `{}`. A
`pure_result` cannot say failure: control runs off the end of the function, which has no result. -/
def ofOutcome : {g : Bool} → Option (State × V) → Option (GetResult V g)
  | g, some (st, v) => some (of (g := g) st v)
  | true, none => none
  | false, none => some failed

/-- `if constexpr (good) a else b`, where both branches return. -/
def ifConstexpr (good : Bool) (a : Option (PureResult V)) (b : Option (Result V)) :
    Option (GetResult V good) :=
  match good with
  | true => a
  | false => b

/-- Whether a `get_result_t<V, g>` with state `st` and some value is good. -/
def kept (g : Bool) (V : ValueType) (st : State) : Bool := g || !V.defaultConstructible || st.good

variable {g g' : Bool}

theorem kept_of_good {st : State} (h : st.good = true) : kept g V st = true := by simp [kept, h]

@[simp] theorem toBool_of (st : State) (v : V) : (of st v : GetResult V g).toBool = kept g V st := by
  cases g
  · simp only [of, toBool, Result.good, Result.of, kept]
    cases V.defaultConstructible <;> rfl
  · rfl

@[simp] theorem getState_of (st : State) (v : V) : (of st v : GetResult V g).getState = st := by
  cases g <;> rfl

@[simp] theorem getValue?_of (st : State) (v : V) :
    (of st v : GetResult V g).getValue? = some v := by
  cases g <;> rfl

@[simp] theorem outcome_of (st : State) (v : V) :
    (of st v : GetResult V g).outcome = if kept g V st then some (st, v) else none := by
  simp [outcome]

theorem outcome_of_good {st : State} (h : st.good = true) (v : V) :
    (of st v : GetResult V g).outcome = some (st, v) := by
  rw [outcome_of, if_pos (kept_of_good h)]

theorem ofOutcome_some (st : State) (v : V) :
    (ofOutcome (some (st, v)) : Option (GetResult V g)) = some (.of st v) := by
  cases g <;> rfl

theorem toBool_failed : (failed : GetResult V false).toBool = false := by
  have hd : V.defaultConstructible = V.default?.isSome := rfl
  simp only [failed, toBool, Result.good, Result.failed]
  cases h : V.defaultConstructible
  · rw [if_neg Bool.false_ne_true, ← hd, h]
  · rfl

@[simp] theorem outcome_failed : (failed : GetResult V false).outcome = none := by
  simp [outcome, toBool_failed]

theorem getValue?_isSome {r : GetResult V g} (h : r.toBool = true) : r.getValue?.isSome := by
  cases g
  · simp only [toBool, Result.good] at h
    split at h
    · exact r.value_init ‹_›
    · exact h
  · rfl

theorem toBool_eq (r : GetResult V g) : r.toBool = r.outcome.isSome := by
  rw [outcome]
  split
  · rename_i h
    rw [Option.isSome_map, getValue?_isSome h, h]
  · rename_i h
    simpa using h

theorem kept_of_toBool {r : GetResult V g} (h : r.toBool = true) : kept g V r.getState = true := by
  cases g
  · simp only [toBool, Result.good, kept, getState] at h ⊢
    split at h
    · rename_i hd; simp [hd, h]
    · rename_i hd; simp [hd]
  · rfl

theorem outcome_eq_some {r : GetResult V g} {st : State} {v : V} (h : r.outcome = some (st, v)) :
    r.toBool = true ∧ r.getState = st ∧ r.getValue? = some v := by
  have hb : r.toBool = true := by rw [toBool_eq, h]; rfl
  rw [outcome, if_pos hb] at h
  obtain ⟨w, hw, heq⟩ := Option.map_eq_some_iff.1 h
  cases heq
  exact ⟨hb, rfl, hw⟩

theorem outcome_eq_none {r : GetResult V g} (h : r.toBool = false) : r.outcome = none := by
  rw [outcome, h]; rfl

theorem toBool_setState (r : GetResult V g) (st : State) :
    (r.setState st).toBool = (kept g V st && r.getValue?.isSome) := by
  cases g
  · have hd : V.defaultConstructible = true → (Result.value r).isSome = true := r.value_init
    simp only [setState, toBool, Result.good, kept, getValue?]
    cases h : V.defaultConstructible
    · simp
    · simp [hd h]
  · rfl

@[simp] theorem getState_setState (r : GetResult V g) (st : State) :
    (r.setState st).getState = st := by
  cases g <;> rfl

@[simp] theorem getValue?_setState (r : GetResult V g) (st : State) :
    (r.setState st).getValue? = r.getValue? := by
  cases g <;> rfl

theorem toBool_toResult (r : GetResult V g) :
    r.toResult.toBool = (r.toBool && kept false V r.getState) := by
  cases g
  · show r.toBool = _
    by_cases h : r.toBool = true
    · rw [h, kept_of_toBool h]; rfl
    · simp [h]
  · exact toBool_of (g := false) _ _

theorem getState_toResult (r : GetResult V g) : r.toResult.getState = r.getState := by
  cases g <;> rfl

theorem getValue?_toResult (r : GetResult V g) :
    r.toResult.getValue? = r.getValue? := by
  cases g <;> rfl

end GetResult

end Noam
