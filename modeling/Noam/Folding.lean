import Noam.Coroutine
import Noam.Lookahead
import Noam.Termination

/-!
# Folding over a greedy run

`fold_left` folds over the values of the longest run of successes. A coroutine does the same when it
loops on `co_await test_then(r, update)`, whose callback updates a variable of the coroutine, and when it
loops on `co_await try_parse(r)` (`foldsAlike_iff`). The last one stops at a disengaged optional, and
takes a success of `r` for a failure when its value is one.
-/

namespace Noam
open GetResult ValueType Loop Attempt

variable {U V W T : ValueType} {g g' : Bool} {st st' : State}

/-! ### The loops -/

/-- `test_then(p, func)` with a `func` that updates the variable `x`: its answer, and `x` afterwards. -/
def testThenUpdate (p : Parser g W) (func : V → W → V) (x : V) : Parser true (pair bool V) where
  parse st := p.ifParse st
    (fun st w => return PureResult.mk st (true, func x w))
    (return PureResult.mk st (false, x))

/-- `*value`, if the optional is engaged. -/
def optionalValue : {W : ValueType} → W.deduceOptional → Option W
  | .type _ _, value => value
  | .optional _, none => none
  | .optional _, some w => some (some w)

/-- The frames of a coroutine that loops over a variable: its start, the head of the loop, and the
`co_return`. -/
inductive LoopFrame (V : ValueType)
  | start
  | loop (sum : V)
  | done (sum : V)

/-- `T sum = co_await p; while (co_await test_then(r, [&](auto value) { sum = op(sum, value); })); co_return sum;`
-/
def loopTestThen (p : Parser g U) (init : U → V) (r : Parser g' W) (op : V → W → V) : Coroutine V where
  Frame := LoopFrame V
  start := .start
  step
    | .start => .coAwait p fun value => .loop (init value)
    | .loop sum => .coAwait (testThenUpdate r op sum) fun (ok, sum) => if ok then .loop sum else .done sum
    | .done sum => .coReturn sum

/-- `T sum = co_await p; while (std::optional value = co_await try_parse(r)) { sum = op(sum, *value); } co_return sum;`
-/
def loopTryParse (p : Parser g U) (init : U → V) (r : Parser g' W) (op : V → W → V) : Coroutine V where
  Frame := LoopFrame V
  start := .start
  step
    | .start => .coAwait p fun value => .loop (init value)
    | .loop sum => .coAwait (tryParse r) fun value =>
      match optionalValue value with
      | some value => .loop (op sum value)
      | none => .done sum
    | .done sum => .coReturn sum

/-- The update is all that the callback adds to `test_then`. -/
theorem run_testThenUpdate (p : Parser g W) (func : V → W → V) (x : V) (st : State) :
    (testThenUpdate p func x).run st = (p.run st).map fun y =>
      some (y.elim (st, (false, x)) fun y => (y.1, (true, func x y.2))) := by
  rcases h : p.run st with _ | _ | ⟨st', v⟩
  · exact congrArg (Option.map outcome) (Parser.ifParse_none h)
  · exact congrArg (Option.map outcome) (Parser.ifParse_fail h)
  · exact congrArg (Option.map outcome) (Parser.ifParse_some h)

theorem optionalValue_nullopt : optionalValue (nullopt : W.deduceOptional) = none := by
  cases W <;> rfl

theorem optionalValue_toOptional (w : W) :
    optionalValue (toOptional w) = if isNullopt w then none else some w := by
  cases W with
  | type values d => rfl
  | optional W =>
    cases w <;> rfl

/-! ### Runs of a coroutine from a frame -/

namespace Coroutine
variable {co : Coroutine T} {f : co.Frame} {v : T}

/-- What the coroutine does from a frame on, as `result<T>` shows it. -/
def runFrom (co : Coroutine T) (f : co.Frame) : Attempt State T := fun st =>
  ((loop co.round (f, ParsePromise.init T st, [])).bind (·.1.toResult)).map (outcome (g := false))

/-- The awaits that were executed before make no difference. -/
theorem loop_round_fst (f : co.Frame) (promise : ParsePromise T) (l : List (co.Frame × State)) :
    (loop co.round (f, promise, l)).map Prod.fst = (loop co.round (f, promise, [])).map Prod.fst := by
  have hrel : Option.Rel (fun x y : co.Stopped => x.1 = y.1) (loop co.round (f, promise, l))
      (loop co.round (f, promise, [])) := by
    refine rel_loop (R := fun x y => x.1 = y.1 ∧ x.2.1 = y.2.1) (fun x y hxy => ?_) ⟨rfl, rfl⟩
    obtain ⟨f, promise, l⟩ := x
    obtain ⟨f', promise', l'⟩ := y
    obtain ⟨rfl, rfl⟩ := hxy
    rcases hstep : co.step f with ⟨p, next⟩ | _ | v
    · rw [round_await _ _ hstep, round_await _ _ hstep]
      rcases p.run promise.state with _ | _ | ⟨st', v⟩
      · exact .none
      · exact .some (.done rfl)
      · exact .some (.next ⟨rfl, rfl⟩)
    · rw [round_throw _ _ hstep, round_throw _ _ hstep]
      exact .some (.done rfl)
    · rw [round_return _ _ hstep, round_return _ _ hstep]
      exact .some (.done rfl)
  exact rel_eq.1 (rel_map hrel fun _ _ h => h)

theorem runFrom_eq (f : co.Frame) (st : State) (l : List (co.Frame × State)) :
    ((loop co.round (f, ParsePromise.init T st, l)).bind (·.1.toResult)).map (outcome (g := false)) =
      co.runFrom f st := by
  have h := congrArg (fun x => (x.bind ParsePromise.toResult).map (outcome (g := false)))
    (loop_round_fst f (ParsePromise.init T st) l)
  simp only [Option.bind_map] at h
  exact h

theorem run_toParser (co : Coroutine T) : co.toParser.run = co.runFrom co.start := by
  funext st
  rw [Parser.run, parse_toParser]; rfl

/-- An await goes on with the value and the state of the parser. -/
theorem runFrom_await {p : Parser g V} {next : V → co.Frame} (hstep : co.step f = .coAwait p next) :
    co.runFrom f = bind p.run fun v => co.runFrom (next v) := by
  funext st
  have hround := round_await (ParsePromise.init T st) [] hstep
  rw [show (ParsePromise.init T st).state = st from rfl] at hround
  rcases h : p.run st with _ | _ | ⟨st', v⟩ <;> rw [h] at hround
  · rw [bind_none h, runFrom, loop_none hround]; rfl
  · rw [bind_fail h, runFrom, loop_done hround]
    exact congrArg some outcome_failed
  · rw [bind_some h, runFrom, loop_next hround]
    exact runFrom_eq (next v) st' _

theorem runFrom_return (hstep : co.step f = .coReturn v) (hst : st.good = true) :
    co.runFrom f st = some (some (st, v)) := by
  have hround := round_return (ParsePromise.init T st) [] hstep
  rw [runFrom, loop_done hround]
  exact congrArg some (outcome_of_good hst v)

end Coroutine

/-! ### Each loop on a live state -/

section
variable {p : Parser g U} {init : U → V} {r : Parser g' W} {op : V → W → V} {sum : V}

theorem run_loopTestThen (p : Parser g U) (init : U → V) (r : Parser g' W) (op : V → W → V) :
    (loopTestThen p init r op).toParser.run =
      bind p.run fun v => (loopTestThen p init r op).runFrom (.loop (init v)) := by
  rw [Coroutine.run_toParser]
  exact Coroutine.runFrom_await rfl

theorem run_loopTryParse (p : Parser g U) (init : U → V) (r : Parser g' W) (op : V → W → V) :
    (loopTryParse p init r op).toParser.run =
      bind p.run fun v => (loopTryParse p init r op).runFrom (.loop (init v)) := by
  rw [Coroutine.run_toParser]
  exact Coroutine.runFrom_await rfl

/-- The head of the loop on `test_then`. -/
theorem runFrom_loopTestThen : (loopTestThen p init r op).runFrom (.loop sum) =
    bind (testThenUpdate r op sum).run fun x =>
      (loopTestThen p init r op).runFrom (if x.1 then .loop x.2 else .done x.2) :=
  Coroutine.runFrom_await rfl

/-- The head of the loop on `try_parse`. -/
theorem runFrom_loopTryParse : (loopTryParse p init r op).runFrom (.loop sum) =
    bind (tryParse r).run fun value => (loopTryParse p init r op).runFrom
      (match optionalValue value with
        | some value => .loop (op sum value)
        | none => .done sum) :=
  Coroutine.runFrom_await rfl

/-- The loop on `test_then` is the repetition of `r`. Every success leaves a shorter state, and the
induction is on the number of characters left. -/
theorem testThen_loop (hr : Leaves 1 r.run) (hst : st.Live) :
    (loopTestThen p init r op).runFrom (.loop sum) st =
      iterate (fun a => Attempt.map (op a) r.run) sum st := by
  induction hn : st.length using Nat.strong_induction_on generalizing st sum with
  | _ n ih =>
    have htest := run_testThenUpdate r op sum st
    have hround := map_apply (op sum) r.run st
    rw [runFrom_loopTestThen]
    rcases h : r.run st with _ | _ | ⟨st', w⟩ <;> rw [h] at htest hround
    · rw [bind_none htest, iterate_none hround]
    · rw [bind_some htest, iterate_fail hround]
      exact Coroutine.runFrom_return rfl hst.good
    · obtain ⟨hs, hlt⟩ := hr st st' w hst h
      rw [bind_some htest, iterate_some hround]
      exact ih _ (hn ▸ hs.length_lt hlt) (hs.live hst) rfl

/-! ### Where the loop on `try_parse` stops -/

/-- Successes of `r` one after the other, not necessarily as many as there are. -/
inductive Successes (r : Attempt State W) : State → List W → State → Prop
  | nil {st : State} : Successes r st [] st
  | cons {st st₁ st' : State} {w : W} {ws : List W} (h : r st = some (some (st₁, w)))
      (hs : Successes r st₁ ws st') : Successes r st (w :: ws) st'

/-- A success of `r` with a disengaged optional, anywhere in the run from `st`, is followed by a
failure, and `op` does not change the accumulator for it. -/
def NulloptEnds (r : Attempt State W) (op : V → W → V) (sum : V) (st : State) : Prop :=
  ∀ ws st₁ st₂ w, Successes r st ws st₁ → r st₁ = some (some (st₂, w)) → isNullopt w = true →
    r st₂ = some none ∧ op (ws.foldl op sum) w = ws.foldl op sum

theorem nulloptEnds_of_ne {r : Attempt State W} (h : ∀ x, r st ≠ some (some x)) :
    NulloptEnds r op sum st := by
  intro ws st₁ st₂ w hs hw
  cases hs with
  | nil => exact absurd hw (h _)
  | cons hr _ => exact absurd hr (h _)

theorem nulloptEnds_cons {r : Attempt State W} {w : W} (h : r st = some (some (st', w))) :
    NulloptEnds r op sum st ↔
      (isNullopt w = true → r st' = some none ∧ op sum w = sum) ∧ NulloptEnds r op (op sum w) st' := by
  constructor
  · intro hn
    exact ⟨hn [] st st' w .nil h, fun ws st₁ st₂ w' hs => hn (w :: ws) st₁ st₂ w' (.cons h hs)⟩
  · rintro ⟨hfirst, hrest⟩ ws st₁ st₂ w' hs hw hnull
    cases hs with
    | nil =>
      rw [h] at hw; cases hw
      exact hfirst hnull
    | cons hr hs =>
      rw [h] at hr; cases hr
      exact hrest _ st₁ st₂ w' hs hw hnull

/-- A greedy run that comes back to where it started has no values. -/
theorem iterate_eq_self_iff {r : Attempt State W} (hr : Leaves 1 r) (hst : st.Live) {b b' : V} :
    iterate (fun a => Attempt.map (op a) r) b st = some (some (st, b')) ↔
      r st = some none ∧ b = b' := by
  rw [iterate_eq_some_iff]
  constructor
  · rintro ⟨ws, hws, rfl⟩
    cases hws with
    | stop h => exact ⟨h, rfl⟩
    | step h hs =>
      -- a round would take a character, and no later one gives it back
      obtain ⟨hs₁, hlt⟩ := hr _ _ _ hst h
      have hle := length_le_of_greedy hr hs (hs₁.live hst)
      omega
  · rintro ⟨h, rfl⟩
    exact ⟨[], .stop h, rfl⟩

/-- The loop on `try_parse` is the repetition of `r` as long as no disengaged optional turns up before
the end. -/
theorem tryParse_loop_iff (hr : Leaves 1 r.run) (hst : st.Live) :
    (loopTryParse p init r op).runFrom (.loop sum) st =
      iterate (fun a => Attempt.map (op a) r.run) sum st ↔ NulloptEnds r.run op sum st := by
  induction hn : st.length using Nat.strong_induction_on generalizing st sum with
  | _ n ih =>
    have htry := run_tryParse r st
    have hround := map_apply (op sum) r.run st
    rw [runFrom_loopTryParse]
    rcases h : r.run st with _ | _ | ⟨st', w⟩ <;> rw [h] at htry hround
    · rw [bind_none htry, iterate_none hround]
      exact iff_of_true rfl (nulloptEnds_of_ne (by simp [h]))
    · rw [bind_some htry, iterate_fail hround]
      refine iff_of_true ?_ (nulloptEnds_of_ne (by simp [h]))
      simp only [optionalValue_nullopt]
      exact Coroutine.runFrom_return rfl hst.good
    · obtain ⟨hs, hlt⟩ := hr st st' w hst h
      rw [bind_some htry, iterate_some hround, nulloptEnds_cons h]
      simp only [optionalValue_toOptional]
      by_cases hw : isNullopt w = true
      · -- the loop ends here, and so must the repetition
        simp only [hw, if_true]
        have hdone : (loopTryParse p init r op).runFrom (LoopFrame.done sum) st' = some (some (st', sum)) :=
          Coroutine.runFrom_return rfl (hs.live hst).good
        refine (Eq.congr_left hdone).trans ?_
        rw [eq_comm, iterate_eq_self_iff hr (hs.live hst)]
        constructor
        · rintro ⟨hfail, hop⟩
          exact ⟨fun _ => ⟨hfail, hop⟩, nulloptEnds_of_ne (by simp [hfail])⟩
        · rintro ⟨hends, -⟩
          exact hends trivial
      · simp only [hw, Bool.false_eq_true, if_false, false_implies, true_and]
        exact ih _ (hn ▸ hs.length_lt hlt) (hs.live hst) rfl

end

/-! ### `fold_left` -/

section
variable {p : Parser g V} {r : Parser g' W} {op : V → W → V}

theorem run_foldLeft (hp : Leaves 0 p.run) (hr : Leaves 1 r.run) (hst : st.Live) :
    (foldLeft p r op).run st =
      bind p.run (iterate fun a => Attempt.map (op a) r.run) st := by
  rw [foldLeft_eq]
  refine run_ofAttempt_eq (fun st' x h => ?_) (by simp)
  obtain ⟨st₁, v, h₁, h₂⟩ := bind_eq_some h
  obtain ⟨ws, hws, -⟩ := (iterate_eq_some_iff op).1 h₂
  have hs := (hp st st₁ v hst h₁).1
  have hle := length_le_of_greedy hr hws (hs.live hst)
  exact State.good_of_le (hs.live hst).good (by omega)

/-- `fold_left` folds over the greedy run, and both loops of a coroutine do what it does. -/
structure FoldsAlike (p : Parser g V) (r : Parser g' W) (op : V → W → V) (st : State) : Prop where
  fails : (foldLeft p r op).run st = some none ↔ p.run st = some none
  folds : ∀ st' x, (foldLeft p r op).run st = some (some (st', x)) ↔
    ∃ st₁ v ws, p.run st = some (some (st₁, v)) ∧ Greedy r.run st₁ ws st' ∧ x = ws.foldl op v
  returns : Total State.Live p.run → Total State.Live r.run → ((foldLeft p r op).run st).isSome
  testThen : (loopTestThen p id r op).toParser.run st = (foldLeft p r op).run st
  tryParse : (loopTryParse p id r op).toParser.run st = (foldLeft p r op).run st

theorem foldLeft_fails_iff (hp : Leaves 0 p.run) (hr : Leaves 1 r.run) (hst : st.Live) :
    (foldLeft p r op).run st = some none ↔ p.run st = some none := by
  rw [run_foldLeft hp hr hst]
  rcases h : p.run st with _ | _ | ⟨st₁, v⟩
  · simp [bind_none h]
  · simp [bind_fail h]
  · simp [bind_some h, neverFails_iterate _ v st₁]

theorem foldLeft_eq_some_iff (hp : Leaves 0 p.run) (hr : Leaves 1 r.run) (hst : st.Live) {x : V} :
    (foldLeft p r op).run st = some (some (st', x)) ↔
      ∃ st₁ v ws, p.run st = some (some (st₁, v)) ∧ Greedy r.run st₁ ws st' ∧ x = ws.foldl op v := by
  rw [run_foldLeft hp hr hst]
  constructor
  · intro h
    obtain ⟨st₁, v, h₁, h₂⟩ := bind_eq_some h
    obtain ⟨ws, hws, rfl⟩ := (iterate_eq_some_iff op).1 h₂
    exact ⟨st₁, v, ws, h₁, hws, rfl⟩
  · rintro ⟨st₁, v, ws, h₁, hws, rfl⟩
    rw [bind_some h₁]
    exact (iterate_eq_some_iff op).2 ⟨ws, hws, rfl⟩

theorem foldLeft_returns (hp : Leaves 0 p.run) (hr : Leaves 1 r.run) (hst : st.Live)
    (hpt : Total State.Live p.run) (hrt : Total State.Live r.run) :
    ((foldLeft p r op).run st).isSome :=
  foldLeft_ends op ⟨hpt, hp⟩ ⟨hrt, hr.mono (Nat.zero_le _)⟩
    (fun st st' w hst h => (hr st st' w hst h).2) hst

theorem loopTestThen_eq (hp : Leaves 0 p.run) (hr : Leaves 1 r.run) (hst : st.Live) :
    (loopTestThen p id r op).toParser.run st = (foldLeft p r op).run st := by
  rw [run_foldLeft hp hr hst, run_loopTestThen]
  rcases h : p.run st with _ | _ | ⟨st₁, v⟩
  · rw [bind_none h, bind_none h]
  · rw [bind_fail h, bind_fail h]
  · rw [bind_some h, bind_some h]
    exact testThen_loop hr ((hp st st₁ v hst h).1.live hst)

theorem loopTryParse_eq_iff (hp : Leaves 0 p.run) (hr : Leaves 1 r.run) (hst : st.Live) :
    (loopTryParse p id r op).toParser.run st = (foldLeft p r op).run st ↔
      ∀ st₁ v, p.run st = some (some (st₁, v)) → NulloptEnds r.run op v st₁ := by
  rw [run_foldLeft hp hr hst, run_loopTryParse]
  rcases h : p.run st with _ | _ | ⟨st₁, v⟩
  · simp [bind_none h]
  · simp [bind_fail h]
  · rw [bind_some h, bind_some h]
    refine (tryParse_loop_iff hr ((hp st st₁ v hst h).1.live hst)).trans ?_
    simp

/-- The three agree exactly when no success of `r` in the run has a disengaged optional for its value,
or only the last one, and `op` does nothing for it. -/
theorem foldsAlike_iff (p : Parser g V) (r : Parser g' W) (op : V → W → V) (hp : Leaves 0 p.run)
    (hr : Leaves 1 r.run) (hst : st.Live) :
    FoldsAlike p r op st ↔ ∀ st₁ v, p.run st = some (some (st₁, v)) → NulloptEnds r.run op v st₁ := by
  rw [← loopTryParse_eq_iff hp hr hst]
  constructor
  · intro h
    exact h.tryParse
  · intro h
    exact ⟨foldLeft_fails_iff hp hr hst, fun _ _ => foldLeft_eq_some_iff hp hr hst,
      foldLeft_returns hp hr hst, loopTestThen_eq hp hr hst, h⟩

end

theorem Takes.leaves {n : Nat} {A : Attempt State V} (h : Takes n A) : Leaves n A :=
  fun st st' v hst hr => h st st' v hst.valid hr

theorem takes_tryParse {p : Parser g V} (h : Takes 0 p.run) : Takes 0 (tryParse p).run := by
  rw [tryParse_eq]
  exact ((h.map _).orElse (takes_pure _)).ofAttempt

theorem takes_shiftRight {n m : Nat} {p : Parser g V} {q : Parser g' W} (hp : Takes n p.run)
    (hq : Takes m q.run) : Takes (n + m) (p >>> q).run := by
  show Takes (n + m) (shiftRight p q).run
  rw [shiftRight_eq]
  exact (hp.bind fun _ => hq).ofAttempt

/-- The number of commas in `,,`, which have no value. -/
theorem foldsAlike_commas :
    FoldsAlike (pureParser (V := sizeT) 0)
      (literal (Memory.ofText [ch ',', ch ',']) [.charLiteral (ch ',')]) (fun n _ => n + 1)
      (State.ofLength 2) := by
  have hp : Leaves 0 (pureParser (V := sizeT) 0).run := (takes_pure (0 : Nat)).leaves
  have hr : Leaves 1 (literal (Memory.ofText [ch ',', ch ',']) [.charLiteral (ch ',')]).run :=
    (takes_literal _ (.charLiteral (ch ','))).leaves
  refine (foldsAlike_iff _ _ _ hp hr (State.live_ofLength 2)).2 fun st₁ v _ ws st₂ st₃ w _ _ hw => ?_
  cases hw

/-- Commas that a boolean may follow, in `,,`: their values are optionals, here disengaged. `fold_left`
counts two of them, and the loop on `try_parse` stops behind the first and counts none. -/
theorem foldsAlike_optional_fails :
    let mem := Memory.ofText [ch ',', ch ',']
    let p : Parser true sizeT := pureParser (V := sizeT) 0
    let r : Parser false (optional bool) := literal mem [.charLiteral (ch ',')] >>> tryParse (boolParser mem)
    let op : sizeT → optional bool → sizeT := fun n _ => n + 1
    Leaves 0 p.run ∧ Leaves 1 r.run ∧
      (foldLeft p r op).run (State.ofLength 2) = some (some (⟨3, 3⟩, (2 : Nat))) ∧
      (loopTryParse p id r op).toParser.run (State.ofLength 2) = some (some (⟨2, 3⟩, (0 : Nat))) ∧
      ¬ FoldsAlike p r op (State.ofLength 2) := by
  intro mem p r op
  have hp : Leaves 0 p.run := (takes_pure (0 : Nat)).leaves
  have hbool : Takes 0 (boolParser mem).run := takes_zero.2 boolParser_reads.suffix
  have hr : Leaves 1 r.run :=
    (takes_shiftRight (takes_literal mem (.charLiteral (ch ','))) (takes_tryParse hbool)).leaves
  have hst : (State.ofLength 2).Live := State.live_ofLength 2
  have hstart : p.run (State.ofLength 2) = some (some (State.ofLength 2, (0 : Nat))) := rfl
  have hfirst : r.run (State.ofLength 2) = some (some (⟨2, 3⟩, none)) := rfl
  have hsecond : r.run ⟨2, 3⟩ = some (some (⟨3, 3⟩, none)) := rfl
  have hfold : (foldLeft p r op).run (State.ofLength 2) = some (some (⟨3, 3⟩, (2 : Nat))) :=
    (foldLeft_eq_some_iff hp hr hst).2
      ⟨_, _, _, hstart, .step hfirst (.step hsecond (.stop rfl)), rfl⟩
  have htry : (tryParse r).run (State.ofLength 2) = some (some (⟨2, 3⟩, none)) := by
    rw [run_tryParse, hfirst]; rfl
  have hloop : (loopTryParse p id r op).toParser.run (State.ofLength 2) =
      some (some (⟨2, 3⟩, (0 : Nat))) := by
    rw [run_loopTryParse, bind_some hstart, runFrom_loopTryParse, bind_some htry]
    exact Coroutine.runFrom_return rfl rfl
  refine ⟨hp, hr, hfold, hloop, fun h => ?_⟩
  have hsame := h.tryParse
  rw [hfold, hloop] at hsame
  cases hsame

end Noam
