import Noam.Refinement

/-!
# Tests and lookahead

`lookahead`, `test`, `try_parse` and `try_lookahead` keep or reset the state of a result and turn the
verdict into a value. Each has a law that ties its outcome to the outcome of the parser it is given.
None of the laws holds on every input: `lookahead` makes a failed result good by setting its state,
`test` copies the value and never moves, and `std::optional {v}` is a copy when `v` is an optional.
-/

namespace Noam
open GetResult ValueType Attempt

variable {V W : ValueType} {g g' : Bool} {mem : Memory} {st st' : State}

/-! ### Outcomes -/

namespace GetResult

theorem getValue?_isSome_of_default (h : V.defaultConstructible = true) (r : GetResult V g) :
    r.getValue?.isSome := by
  cases g
  · exact r.value_init h
  · rfl

theorem getValue?_eq_none (h : V.defaultConstructible = false) {r : GetResult V g}
    (hb : r.toBool = false) : r.getValue? = none := by
  cases g
  · simp only [toBool, Result.good, h, Bool.false_eq_true, if_false] at hb
    exact Option.isNone_iff_eq_none.1 (by rw [← Option.not_isSome, show r.getValue?.isSome = false from hb]; rfl)
  · cases hb

end GetResult

theorem Parser.parse_of_run_fail {p : Parser g V} (h : p.run st = some none) :
    ∃ r, p.parse st = some r ∧ r.toBool = false := by
  obtain ⟨r, hp, hr⟩ := Option.map_eq_some_iff.1 h
  exact ⟨r, hp, by rw [toBool_eq, hr]; rfl⟩

theorem Parser.parse_eq_none {p : Parser g V} (h : p.run st = none) : p.parse st = none :=
  Option.map_eq_none_iff.1 h

theorem run_shiftRight (p : Parser g V) (q : Parser g' W) (st : State) :
    (p >>> q).run st = (bind p.run (fun _ => q.run) st).bind (settle false) := by
  show (shiftRight p q).run st = _
  rw [shiftRight_eq, run_ofAttempt]

theorem run_lookahead (p : Parser g V) (hst : st.good = true) :
    (lookahead p).run st = (p.parse st).map fun r => r.getValue?.map fun v => (st, v) := by
  have hset : ∀ r : GetResult V g, (r.setState st).outcome = r.getValue?.map fun v => (st, v) := by
    intro r
    rw [GetResult.outcome, toBool_setState, kept_of_good hst, getValue?_setState, getState_setState]
    rcases r.getValue? with _ | v <;> rfl
  rcases hp : p.parse st with _ | r
  · simp only [Parser.run, lookahead, hp]; rfl
  · simp only [Parser.run, lookahead, hp]
    exact congrArg some (hset r)

theorem run_tryParse (p : Parser g V) (st : State) : (tryParse p).run st =
    (p.run st).map fun x => some (x.elim (st, nullopt) fun y => (y.1, toOptional y.2)) := by
  rcases h : p.run st with _ | _ | ⟨st', v⟩
  · exact congrArg (Option.map outcome) (Parser.ifParse_none h)
  · exact congrArg (Option.map outcome) (Parser.ifParse_fail h)
  · exact congrArg (Option.map outcome) (Parser.ifParse_some h)

theorem run_tryLookahead (p : Parser g V) (st : State) : (tryLookahead p).run st =
    (p.run st).map fun x => some (st, x.elim nullopt fun y => toOptional y.2) := by
  rcases h : p.run st with _ | _ | ⟨st', v⟩
  · exact congrArg (Option.map outcome) (Parser.ifParse_none h)
  · exact congrArg (Option.map outcome) (Parser.ifParse_fail h)
  · exact congrArg (Option.map outcome) (Parser.ifParse_some h)

theorem run_testThen (p : Parser g V) (func : V → Unit) (st : State) : (testThen p func).run st =
    (p.run st).map fun x => some (x.elim (st, false) fun y => (y.1, true)) := by
  rcases h : p.run st with _ | _ | ⟨st', v⟩
  · exact congrArg (Option.map outcome) (Parser.ifParse_none h)
  · exact congrArg (Option.map outcome) (Parser.ifParse_fail h)
  · exact congrArg (Option.map outcome) (Parser.ifParse_some h)

theorem run_test (p : Parser g bool) (st : State) :
    (test p).run st = (p.parse st).map fun r => some (st, r.getValue?.getD false) := by
  rcases h : p.parse st with _ | r <;> simp only [Parser.run, test, h] <;> rfl

/-! ### `lookahead` -/

/-- `lookahead(p)` has the outcome of `p` with the state reset; so it may stand in front of `p`, and
trying it is `try_lookahead(p)`. -/
structure LookaheadLaws (p : Parser g V) (st : State) : Prop where
  outcome : (lookahead p).run st = (p.run st).map (Option.map fun x => (st, x.2))
  shiftRight : (lookahead p >>> p).run st = p.run st
  tryParse : (tryParse (lookahead p)).run st = (tryLookahead p).run st

/-- A failed result over a default-constructible value is good again once its state is set. -/
theorem run_lookahead_fail {p : Parser g V} (hV : V.defaultConstructible = true)
    (hst : st.good = true) (h : p.run st = some none) :
    ∃ v, (lookahead p).run st = some (some (st, v)) := by
  obtain ⟨r, hp, -⟩ := Parser.parse_of_run_fail h
  obtain ⟨v, hv⟩ := Option.isSome_iff_exists.1 (getValue?_isSome_of_default hV r)
  exact ⟨v, by rw [run_lookahead p hst, hp, Option.map_some, hv]; rfl⟩

/-- `lookahead` resets the state of a success, and leaves a failure that has no value. -/
theorem run_lookahead_eq {p : Parser g V} (hst : st.good = true)
    (h : V.defaultConstructible = true → p.run st ≠ some none) :
    (lookahead p).run st = (p.run st).map (Option.map fun x => (st, x.2)) := by
  rcases hr : p.run st with _ | _ | ⟨st', v⟩
  · rw [run_lookahead p hst, Parser.parse_eq_none hr]; rfl
  · obtain ⟨r, hp, hb⟩ := Parser.parse_of_run_fail hr
    have hV : V.defaultConstructible = false := Bool.eq_false_iff.2 fun hV => h hV hr
    rw [run_lookahead p hst, hp, Option.map_some, getValue?_eq_none hV hb]; rfl
  · obtain ⟨r, hp, -, -, hv⟩ := Parser.parse_of_run hr
    rw [run_lookahead p hst, hp, Option.map_some, hv]; rfl

/-- The laws of `lookahead` hold unless the value is default-constructible and `p` fails, or leaves a
null state. -/
theorem lookahead_laws_iff (p : Parser g V) (hst : st.good = true) :
    LookaheadLaws p st ↔ (V.defaultConstructible = true →
      p.run st ≠ some none ∧ ∀ st' v, p.run st = some (some (st', v)) → st'.good = true) := by
  constructor
  · intro h hV
    constructor
    · intro hr
      -- the failed result has a default value, so that the first branch of `lookahead` makes it good
      obtain ⟨v, hv⟩ := run_lookahead_fail hV hst hr
      have hlaw := h.outcome
      rw [hv, hr] at hlaw
      cases hlaw
    · intro st' v hr
      have hlook := h.outcome
      rw [hr] at hlook
      -- `>>` turns a success with a null state into a failure
      have hthen := h.shiftRight
      rw [run_shiftRight, bind_some hlook, hr, Option.bind_some, settle] at hthen
      have hk : kept false V st' = true := by
        by_contra hk
        rw [if_neg hk] at hthen
        cases hthen
      simpa [kept, hV] using hk
  · intro h
    have hlook := run_lookahead_eq hst fun hV => (h hV).1
    refine ⟨hlook, ?_, ?_⟩
    · rw [run_shiftRight]
      rcases hr : p.run st with _ | _ | ⟨st', v⟩ <;> rw [hr] at hlook
      · rw [bind_none hlook]; rfl
      · rw [bind_fail hlook]; rfl
      · have hk : kept false V st' = true := by
          cases hV : V.defaultConstructible
          · simp [kept, hV]
          · exact kept_of_good ((h hV).2 st' v hr)
        rw [bind_some hlook, hr, Option.bind_some, settle, if_pos hk]
    · rw [run_tryParse, run_tryLookahead, hlook]
      rcases p.run st with _ | _ | ⟨st', v⟩ <;> rfl

/-- `parse_bool` on `true`. -/
theorem lookahead_laws_bool : LookaheadLaws (boolParser (Memory.ofText [ch 't', ch 'r', ch 'u', ch 'e']))
    (State.ofLength 4) := by
  refine (lookahead_laws_iff _ rfl).2 fun _ => ⟨by decide, fun st' v hr => ?_⟩
  have hrun : (boolParser (Memory.ofText [ch 't', ch 'r', ch 'u', ch 'e'])).run (State.ofLength 4) =
      some (some (⟨5, 5⟩, true)) := rfl
  rw [hrun] at hr
  cases hr
  rfl

/-- `lookahead(parse_bool)` succeeds on `x`, where `parse_bool` fails. -/
theorem lookahead_bool_succeeds :
    let p := boolParser (Memory.ofText [ch 'x'])
    p.run (State.ofLength 1) = some none ∧
      (lookahead p).run (State.ofLength 1) = some (some (State.ofLength 1, false)) ∧
      ¬ LookaheadLaws p (State.ofLength 1) := by
  refine ⟨rfl, rfl, fun h => ?_⟩
  have hlaw := h.outcome
  cases hlaw

/-! ### `test` -/

/-- `test(p)` says whether `p` succeeds, and moves when it does: it is `test_then(p, [](auto) {})`, and
`test_lookahead(p)` is the same without the move. -/
structure TestLaws (p : Parser g bool) (st : State) : Prop where
  success : ∀ st' v, p.run st = some (some (st', v)) → (test p).run st = some (some (st', true))
  failure : p.run st = some none → (test p).run st = some (some (st, false))
  testThen : (test p).run st = (testThen p fun _ => ()).run st
  testLookahead : (testLookahead p).run st = ((test p).run st).map (Option.map fun x => (st, x.2))

theorem testPrefix_eq_testThen (mem : Memory) (pre : State) (hst : st.good = true) :
    (testPrefix mem pre).run st = (testThen (requirePrefix mem pre) fun _ => ()).run st := by
  have hgood : (st.substr (toSizeT pre.size)).good = true := State.good_removePrefix hst _
  have htest : (testPrefix mem pre).parse st = if st.startsWith mem pre then
      (some (PureResult.mk (st.substr (toSizeT pre.size)) true) : Option (PureResult bool))
    else some (PureResult.mk st false) := rfl
  by_cases h : st.startsWith mem pre = true
  · have hreq : (requirePrefix mem pre).run st = some (some (st.substr (toSizeT pre.size), pre)) := by
      simp only [Parser.run, requirePrefix, if_pos h]
      exact congrArg some (outcome_of_good hgood _)
    rw [if_pos h] at htest
    rw [run_testThen, hreq, Parser.run_of_parse htest]
    rfl
  · have hreq : (requirePrefix mem pre).run st = some none := by
      simp only [Parser.run, requirePrefix, if_neg h]
      exact congrArg some outcome_failed
    rw [if_neg h] at htest
    rw [run_testThen, hreq, Parser.run_of_parse htest]
    rfl

/-- The laws of `test` hold when the value of the result of `p` is its verdict, and `p` does not move.
`test_prefix` is `test_then` of `require_prefix`. -/
theorem test_laws_iff (mem : Memory) (p : Parser g bool) (hst : st.good = true) :
    (TestLaws p st ↔ ∀ r, p.parse st = some r →
      r.getValue? = some r.toBool ∧ (r.toBool = true → r.getState = st)) ∧
    ∀ pre, (testPrefix mem pre).run st = (testThen (requirePrefix mem pre) fun _ => ()).run st := by
  refine ⟨⟨fun h r hp => ?_, fun h => ?_⟩, fun pre => testPrefix_eq_testThen mem pre hst⟩
  · have hrun := Parser.run_of_parse hp
    obtain ⟨v, hv⟩ := Option.isSome_iff_exists.1 (getValue?_isSome_of_default rfl r)
    have htest : (test p).run st = some (some (st, v)) := by rw [run_test, hp, Option.map_some, hv]; rfl
    cases hb : r.toBool
    · -- where `p` fails, the law wants `false`, and `test` returns the value of the failed result
      rw [outcome_eq_none hb] at hrun
      have hlaw := h.failure hrun
      rw [htest] at hlaw
      cases hlaw
      exact ⟨hv, fun h => by cases h⟩
    · have hout : r.outcome = some (r.getState, v) := by rw [GetResult.outcome, if_pos hb, hv]; rfl
      have hlaw := h.success _ v (hrun.trans (congrArg some hout))
      rw [htest, Option.some.injEq, Option.some.injEq, Prod.mk.injEq] at hlaw
      exact ⟨hv.trans (congrArg some hlaw.2), fun _ => hlaw.1.symm⟩
  · have hthen : (test p).run st = (testThen p fun _ => ()).run st := by
      rw [run_test, run_testThen, Parser.run, Option.map_map]
      rcases hp : p.parse st with _ | r
      · rfl
      obtain ⟨hv, hs⟩ := h r hp
      cases hb : r.toBool
      · simp [hv, hb, outcome_eq_none hb]
      · simp [GetResult.outcome, hv, hb, hs hb]
    refine ⟨fun st' v hr => ?_, fun hr => ?_, hthen, ?_⟩
    · rw [hthen, run_testThen, hr]; rfl
    · rw [hthen, run_testThen, hr]; rfl
    · show (test p).run st = _
      rw [run_test]
      rcases p.parse st with _ | r <;> rfl

/-- A parser of a constant, and `test_prefix` on a prefix. -/
theorem test_laws_pure :
    let mem := Memory.ofText [ch 'x', ch 'y']
    TestLaws (pureParser (V := ValueType.bool) true) (State.ofLength 2) ∧
      (testPrefix mem ⟨1, 2⟩).run (State.ofLength 2) =
        (testThen (requirePrefix mem ⟨1, 2⟩) fun _ => ()).run (State.ofLength 2) := by
  intro mem
  have h := test_laws_iff mem (pureParser (V := ValueType.bool) true)
    (show (State.ofLength 2).good = true from rfl)
  refine ⟨h.1.2 fun r hp => ?_, h.2 ⟨1, 2⟩⟩
  cases hp
  exact ⟨rfl, fun _ => rfl⟩

/-- `test(parse_bool)` on `true` stays where it is, and says that `parse_bool` fails on `false`. -/
theorem test_bool_stays :
    let p := boolParser (Memory.ofText [ch 't', ch 'r', ch 'u', ch 'e'])
    let q := boolParser (Memory.ofText [ch 'f', ch 'a', ch 'l', ch 's', ch 'e'])
    (p.run (State.ofLength 4) = some (some (⟨5, 5⟩, true)) ∧
      (test p).run (State.ofLength 4) = some (some (State.ofLength 4, true)) ∧
      ¬ TestLaws p (State.ofLength 4)) ∧
    q.run (State.ofLength 5) = some (some (⟨6, 6⟩, false)) ∧
      (test q).run (State.ofLength 5) = some (some (State.ofLength 5, false)) := by
  refine ⟨⟨rfl, rfl, fun h => ?_⟩, rfl, rfl⟩
  have hlaw := h.success ⟨5, 5⟩ true rfl
  cases hlaw

/-! ### `try_parse`, `try_lookahead` -/

/-- An optional holds the value that the parser returned, and nothing when it failed. It is compared
with the value as `*o == v` compares them: an optional that is engaged with another one of its type. -/
def Tells : {V : ValueType} → V.deduceOptional → Option V → Prop
  | .type _ _, o, v => o = v
  | .optional _, o, none => o = none
  | .optional _, o, some v => Option.isSome o ∧ o = v

/-- The value is a disengaged optional. -/
def isNullopt : {V : ValueType} → V → Bool
  | .type _ _, _ => false
  | .optional _, v => Option.isNone v

/-- The optional is engaged when `p` succeeds and then holds its value; `try_parse` moves when `p`
succeeds and `try_lookahead` does not. -/
structure TryLaws (p : Parser g V) (st : State) : Prop where
  tryParse : ∀ x, p.run st = some x → ∃ o,
    (tryParse p).run st = some (some ((x.map Prod.fst).getD st, o)) ∧ Tells o (x.map Prod.snd)
  tryLookahead : ∀ x, p.run st = some x → ∃ o,
    (tryLookahead p).run st = some (some (st, o)) ∧ Tells o (x.map Prod.snd)

theorem tells_nullopt : Tells (nullopt : V.deduceOptional) none := by
  cases V <;> rfl

/-- `std::optional {v}` holds `v` unless `v` is itself a disengaged optional. -/
theorem tells_toOptional {v : V} : Tells (toOptional v) (some v) ↔ isNullopt v = false := by
  cases V with
  | type values d => exact ⟨fun _ => rfl, fun _ => rfl⟩
  | optional V =>
    show (Option.isSome v = true ∧ v = v) ↔ Option.isNone v = false
    cases v <;> simp

theorem tryLaws_iff (p : Parser g V) (st : State) :
    TryLaws p st ↔ ∀ st' v, p.run st = some (some (st', v)) → isNullopt v = false := by
  constructor
  · intro h st' v hr
    obtain ⟨o, ho, ht⟩ := h.tryParse _ hr
    rw [run_tryParse, hr] at ho
    cases ho
    exact tells_toOptional.1 ht
  · intro h
    have ht : ∀ x, p.run st = some x →
        Tells (x.elim nullopt fun y => toOptional y.2) (x.map Prod.snd) := by
      rintro (_ | ⟨st', v⟩) hr
      · exact tells_nullopt
      · exact tells_toOptional.2 (h st' v hr)
    refine ⟨fun x hr => ⟨_, ?_, ht x hr⟩, fun x hr => ⟨_, ?_, ht x hr⟩⟩
    · rw [run_tryParse, hr]; cases x <;> rfl
    · rw [run_tryLookahead, hr]; rfl

/-- A parser of any type. -/
structure AnyParser where
  good : Bool
  value : ValueType
  parser : Parser good value

/-- `try_parse(p)` -/
def AnyParser.tryParse (p : AnyParser) : AnyParser :=
  ⟨true, p.value.deduceOptional, Noam.tryParse p.parser⟩

/-- `p` succeeds with a value that is not a disengaged optional, if it returns. -/
def AnyParser.Engages (p : AnyParser) (st : State) : Prop :=
  ∀ x, p.parser.run st = some x → ∃ y, x = some y ∧ isNullopt y.2 = false

theorem isNullopt_nullopt : isNullopt (nullopt : V.deduceOptional) = true := by
  cases V <;> rfl

theorem isNullopt_toOptional {v : V} : isNullopt (toOptional v) = isNullopt v := by
  cases V <;> rfl

theorem AnyParser.run_tryParse (p : AnyParser) (st : State) : p.tryParse.parser.run st =
    (p.parser.run st).map fun x => some (x.elim (st, nullopt) fun y => (y.1, toOptional y.2)) :=
  Noam.run_tryParse p.parser st

theorem AnyParser.engages_tryParse {p : AnyParser} : p.tryParse.Engages st ↔ p.Engages st := by
  constructor
  · intro h x hr
    obtain ⟨y, hy, hn⟩ := h _ (by rw [AnyParser.run_tryParse, hr]; rfl)
    cases hy
    rcases x with _ | ⟨st', v⟩
    · cases isNullopt_nullopt.symm.trans hn
    · exact ⟨_, rfl, isNullopt_toOptional.symm.trans hn⟩
  · intro h x hr
    rw [AnyParser.run_tryParse] at hr
    obtain ⟨x', hx', rfl⟩ := Option.map_eq_some_iff.1 hr
    obtain ⟨y, rfl, hn⟩ := h x' hx'
    exact ⟨_, rfl, isNullopt_toOptional.trans hn⟩

theorem AnyParser.engages_nested {p : AnyParser} (n : Nat) :
    (AnyParser.tryParse^[n] p).Engages st ↔ p.Engages st := by
  induction n with
  | zero => exact Iff.rfl
  | succ n ih => rw [Function.iterate_succ_apply', engages_tryParse, ih]

/-- The laws of `try_parse` and `try_lookahead` hold unless `p` returns a disengaged optional. They hold
for `try_parse` nested to any depth when the innermost parser does not fail either. -/
theorem try_laws_iff (p : Parser g V) (st : State) :
    (TryLaws p st ↔ ∀ st' v, p.run st = some (some (st', v)) → isNullopt v = false) ∧
    ((∀ n, TryLaws (AnyParser.tryParse^[n] ⟨g, V, p⟩).parser st) ↔
      p.run st ≠ some none ∧ ∀ st' v, p.run st = some (some (st', v)) → isNullopt v = false) := by
  have hengages : (AnyParser.mk g V p).Engages st ↔
      p.run st ≠ some none ∧ ∀ st' v, p.run st = some (some (st', v)) → isNullopt v = false := by
    constructor
    · intro h
      constructor
      · intro hr
        obtain ⟨y, hy, -⟩ := h _ hr
        cases hy
      · intro st' v hr
        obtain ⟨y, hy, hn⟩ := h _ hr
        cases hy
        exact hn
    · rintro ⟨hfail, hsome⟩ (_ | ⟨st', v⟩) hr
      · exact absurd hr hfail
      · exact ⟨_, rfl, hsome st' v hr⟩
  refine ⟨tryLaws_iff p st, ?_⟩
  rw [← hengages]
  constructor
  · -- the law of `try_parse(try_parse(p))` says that the value of `try_parse(p)` is engaged
    intro h x hr
    have hone := (tryLaws_iff _ st).1 (h 1)
    have hrun : (AnyParser.tryParse ⟨g, V, p⟩).parser.run st =
        some (some (x.elim (st, nullopt) fun y => (y.1, toOptional y.2))) := by
      rw [AnyParser.run_tryParse, hr]; rfl
    have hn := hone _ _ hrun
    rcases x with _ | ⟨st', v⟩
    · cases isNullopt_nullopt.symm.trans hn
    · exact ⟨_, rfl, isNullopt_toOptional.symm.trans hn⟩
  · intro h n
    refine (tryLaws_iff _ st).2 fun st' v hr => ?_
    obtain ⟨y, hy, hn⟩ := (AnyParser.engages_nested n).2 h _ hr
    cases hy
    exact hn

/-- `try_parse(try_parse(parse_bool))` on `x`: the inner parser succeeds, the outer optional is
disengaged. -/
theorem try_parse_nested_disengaged :
    let p := tryParse (boolParser (Memory.ofText [ch 'x']))
    p.run (State.ofLength 1) = some (some (State.ofLength 1, none)) ∧
      (tryParse p).run (State.ofLength 1) = some (some (State.ofLength 1, none)) ∧
      ¬ TryLaws p (State.ofLength 1) := by
  refine ⟨rfl, rfl, fun h => ?_⟩
  obtain ⟨o, ho, ht⟩ := h.tryParse _ rfl
  cases ho
  cases ht.1

end Noam
