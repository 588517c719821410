import Noam.Abstraction
import Noam.Texts

/-!
# Coroutine parsers (`coupling/parse_promise.hpp`, `coupling/await_parser.hpp`, `co_await.hpp`)

A coroutine that returns `noam::result<T>` is given by its frames (the local variables and the point
where it stands) and by what it does next in each of them: await a parser and go on with its value,
throw, or return. Loops and branches of the body are steps from frame to frame. The run is driven by
the promise, whose state every awaited parser reads and moves on.
-/

namespace Noam
open GetResult ValueType Loop Attempt

variable {V W T : ValueType} {g g' : Bool} {gs : List Bool} {Vs : List ValueType}

/-- `await_parser::await_ready`: its answer, and the state and the result it leaves. -/
def awaitReady (p : Parser g V) (state : State) : Option (Bool × State × GetResult V g) := do
  let result ← p.parse state
  if result.toBool then return (true, result.getState, result) else return (false, state, result)

/-- `parse_promise<T>`; nothing reads `value` before `return_value` has set it. -/
structure ParsePromise (T : ValueType) where
  state : State
  value : Box T
  isGood : Bool

namespace ParsePromise

/-- `parse_promise(state)` -/
def init (T : ValueType) (state : State) : ParsePromise T := ⟨state, none, false⟩

def returnValue (promise : ParsePromise T) (value : T) : ParsePromise T :=
  { promise with value := some value, isGood := true }

def unhandledException (promise : ParsePromise T) : ParsePromise T := { promise with isGood := false }

/-- The end of `parse_promise_to_result::operator result<T>`. -/
def toResult (promise : ParsePromise T) : Option (Result T) :=
  if promise.isGood then do return .of promise.state (← promise.value) else return .failed

end ParsePromise

/-- What a coroutine does next. -/
inductive Step (F : Type) (T : ValueType) : Type 1 where
  | coAwait {g : Bool} {V : ValueType} (p : Parser g V) (next : V → F)
  | throw
  | coReturn (value : T)

structure Coroutine (T : ValueType) : Type 1 where
  Frame : Type
  start : Frame
  step : Frame → Step Frame T

namespace Coroutine
variable (co : Coroutine T)

/-- A suspended or finished run: the promise, and the awaits executed, each with the frame and the
state it was executed in. -/
abbrev Stopped := ParsePromise T × List (co.Frame × State)

/-- One step of `handle.resume()`. A failed await suspends the coroutine, and nothing resumes it. -/
def round (x : co.Frame × co.Stopped) : Option (Round (co.Frame × co.Stopped) co.Stopped) :=
  let (frame, promise, awaited) := x
  match co.step frame with
  | .coAwait p next => do
    let (ready, state, result) ← awaitReady p promise.state
    let awaited := awaited ++ [(frame, promise.state)]
    let promise := { promise with state := state }
    match ready, result.getValue? with
    | true, some value => return .next (next value, promise, awaited)
    | _, _ => return .done (promise, awaited)
  | .throw => return .done (promise.unhandledException, awaited)
  | .coReturn value => return .done (promise.returnValue value, awaited)

/-- The call of the coroutine and the conversion of what it returns to `result<T>`, with the awaits
that were executed. -/
def drive (st : State) : Option (Result T × List (co.Frame × State)) := do
  let (promise, awaited) ← loop co.round (co.start, ParsePromise.init T st, [])
  return (← promise.toResult, awaited)

def toParser : Parser false T where
  parse st := (co.drive st).map Prod.fst

/-- Every parser that the coroutine awaits leaves a non-null state. -/
def AwaitsKeepNonNull : Prop :=
  ∀ frame, match co.step frame with
    | .coAwait p _ => p.KeepsNonNull
    | _ => True

/-- Every parser that the coroutine awaits returns on a non-null state. -/
def AwaitsReturn : Prop :=
  ∀ frame, match co.step frame with
    | .coAwait p _ => Total (·.good = true) p.run
    | _ => True

/-- A frame that an await may lead to. The body is finite when `Next` is well-founded below `start`. -/
def Next (f' f : co.Frame) : Prop :=
  match co.step f with
  | .coAwait _ next => ∃ v, next v = f'
  | _ => False

/-- From one frame and state to another by awaits that all succeed. -/
inductive Reaches : co.Frame → State → List (co.Frame × State) → co.Frame → State → Prop
  | refl (f : co.Frame) (st : State) : Reaches f st [] f st
  | await {g : Bool} {V : ValueType} {f f' : co.Frame} {st st₁ st' : State} {p : Parser g V}
      {next : V → co.Frame} {v : V} {l : List (co.Frame × State)} (hstep : co.step f = .coAwait p next)
      (hrun : p.run st = some (some (st₁, v))) (h : Reaches (next v) st₁ l f' st') :
      Reaches f st ((f, st) :: l) f' st'

/-- How a run stops after the awaits `l`: the awaits before the last one succeed, and the body then
returns, throws, or awaits a parser that fails. -/
inductive Ends (st : State) : List (co.Frame × State) → Option (State × T) → Prop
  | coReturn {l : List (co.Frame × State)} {f : co.Frame} {st' : State} {v : T}
      (h : co.Reaches co.start st l f st') (hstep : co.step f = .coReturn v) : Ends st l (some (st', v))
  | throw {l : List (co.Frame × State)} {f : co.Frame} {st' : State}
      (h : co.Reaches co.start st l f st') (hstep : co.step f = .throw) : Ends st l none
  | failed {g : Bool} {V : ValueType} {l : List (co.Frame × State)} {f : co.Frame} {st' : State}
      {p : Parser g V} {next : V → co.Frame} (h : co.Reaches co.start st l f st')
      (hstep : co.step f = .coAwait p next) (hrun : p.run st' = some none) :
      Ends st (l ++ [(f, st')]) none

end Coroutine

/-! ### `make_w_coro` -/

/-- A frame of `co_return T {(co_await parsers)...}`: the values awaited so far. -/
@[reducible] def MakeFrame : List ValueType → Type
  | [] => Unit
  | V :: Vs => Option (V × MakeFrame Vs)

def MakeFrame.start : (Vs : List ValueType) → MakeFrame Vs
  | [] => ()
  | _ :: _ => none

def Step.map {F F' : Type} (f : F → F') : Step F T → Step F' T
  | coAwait p next => coAwait p fun v => f (next v)
  | throw => throw
  | coReturn value => coReturn value

def makeStep : {gs : List Bool} → {Vs : List ValueType} → Parsers gs Vs → (ValuesOf Vs → T) →
    MakeFrame Vs → Step (MakeFrame Vs) T
  | _, _, .nil, construct, () => .coReturn (construct ())
  | _, _ :: Vs, .cons p _, _, none => .coAwait p fun v => some (v, MakeFrame.start Vs)
  | _, _, .cons _ ps, construct, some (v, frame) =>
    (makeStep ps (fun vs => construct (v, vs)) frame).map fun frame => some (v, frame)

/-- `make_w_coro<T>(parsers...)` -/
def makeWCoro (construct : ValuesOf Vs → T) (ps : Parsers gs Vs) : Parser false T :=
  Coroutine.toParser ⟨MakeFrame Vs, MakeFrame.start Vs, makeStep ps construct⟩

/-! ### Runs of the promise -/

theorem awaitReady_eq (p : Parser g V) (st : State) :
    awaitReady p st = (p.parse st).map fun r => match r.outcome with
      | some (st', _) => (true, st', r)
      | none => (false, st, r) := by
  unfold awaitReady
  rcases hp : p.parse st with _ | r
  · rfl
  rcases h : r.outcome with _ | ⟨st', v⟩
  · have hb : r.toBool = false := by rw [toBool_eq, h]; rfl
    simp [hb, h]
  · obtain ⟨hb, rfl, -⟩ := outcome_eq_some h
    simp [hb, h]

namespace Coroutine
variable {co : Coroutine T} {f f' : co.Frame} {st st' : State} {l l' : List (co.Frame × State)}

section
variable {p : Parser g V} {next : V → co.Frame} (promise : ParsePromise T) (l : List (co.Frame × State))

theorem round_await (hstep : co.step f = .coAwait p next) :
    co.round (f, promise, l) = (p.run promise.state).map fun
      | some (st', v) => .next (next v, { promise with state := st' }, l ++ [(f, promise.state)])
      | none => .done (promise, l ++ [(f, promise.state)]) := by
  unfold round
  simp only [hstep, awaitReady_eq]
  rcases hp : p.parse promise.state with _ | r
  · simp [Parser.run, hp]
  rw [Parser.run_of_parse hp]
  rcases h : r.outcome with _ | ⟨st', v⟩
  · simp [h]
  · simp [h, (outcome_eq_some h).2.2]

theorem round_throw (hstep : co.step f = .throw) :
    co.round (f, promise, l) = some (.done (promise.unhandledException, l)) := by
  simp only [round, hstep]; rfl

theorem round_return {v : T} (hstep : co.step f = .coReturn v) :
    co.round (f, promise, l) = some (.done (promise.returnValue v, l)) := by
  simp only [round, hstep]; rfl

end

/-- The run follows the awaits that succeed. -/
theorem loop_of_reaches (h : co.Reaches f st l f' st') (l₀ : List (co.Frame × State)) :
    loop co.round (f, ParsePromise.init T st, l₀) =
      loop co.round (f', ParsePromise.init T st', l₀ ++ l) := by
  induction h generalizing l₀ with
  | refl f st => rw [List.append_nil]
  | @await g V f f' st st₁ st' p next v l hstep hrun _ ih =>
    have hround := round_await (ParsePromise.init T st) l₀ hstep
    rw [show (ParsePromise.init T st).state = st from rfl, hrun] at hround
    rw [loop_next hround]
    refine (ih _).trans ?_
    rw [List.append_assoc]; rfl

theorem Reaches.snoc {st₁ : State} {p : Parser g V} {next : V → co.Frame} {v : V}
    (h : co.Reaches f st l f' st') (hstep : co.step f' = .coAwait p next)
    (hrun : p.run st' = some (some (st₁, v))) :
    co.Reaches f st (l ++ [(f', st')]) (next v) st₁ := by
  induction h with
  | refl f st => exact .await hstep hrun (.refl _ _)
  | await hstep' hrun' _ ih => exact .await hstep' hrun' (ih hstep hrun)

/-- The result that is returned for an end of the run. -/
def resultOf : Option (State × T) → Result T
  | some (st, v) => .of st v
  | none => .failed

/-- What a run that stops has done: the awaits that it has executed lead from the start of the body
to the frame that it is in. -/
theorem ends_of_loop {x : co.Frame × co.Stopped} {y : co.Stopped} (h : loop co.round x = some y) :
    x.2.1 = ParsePromise.init T x.2.1.state → co.Reaches co.start st x.2.2 x.1 x.2.1.state →
    ∃ o, co.Ends st y.2 o ∧ y.1.toResult = some (resultOf o) := by
  refine loop_induct (motive := fun x y => x.2.1 = ParsePromise.init T x.2.1.state →
    co.Reaches co.start st x.2.2 x.1 x.2.1.state →
    ∃ o, co.Ends st y.2 o ∧ y.1.toResult = some (resultOf o))
    (fun x y hround hinit hreach => ?_) (fun x x' y hround ih hinit hreach => ?_) h
  all_goals
    obtain ⟨f, promise, l⟩ := x
    rcases hstep : co.step f with ⟨p, next⟩ | _ | v
  -- the rounds that stop the run come first, and then an await that succeeds
  · rw [round_await _ _ hstep] at hround
    rcases hrun : p.run promise.state with _ | _ | ⟨st', v⟩ <;> rw [hrun] at hround <;> cases hround
    refine ⟨none, .failed hreach hstep hrun, ?_⟩
    rw [show promise = _ from hinit]; rfl
  · rw [round_throw _ _ hstep] at hround
    cases hround
    exact ⟨none, .throw hreach hstep, rfl⟩
  · rw [round_return _ _ hstep] at hround
    cases hround
    exact ⟨some (promise.state, v), .coReturn hreach hstep, rfl⟩
  · rw [round_await _ _ hstep] at hround
    rcases hrun : p.run promise.state with _ | _ | ⟨st', v⟩ <;> rw [hrun] at hround <;> cases hround
    refine ih ?_ (hreach.snoc hstep hrun)
    rw [show promise = _ from hinit]; rfl
  · rw [round_throw _ _ hstep] at hround; cases hround
  · rw [round_return _ _ hstep] at hround; cases hround

/-- The run executes the awaits of its end and returns the result of its end. -/
theorem drive_eq_some_iff {r : Result T} :
    co.drive st = some (r, l) ↔ ∃ o, co.Ends st l o ∧ r = resultOf o := by
  unfold drive
  constructor
  · intro h
    obtain ⟨y, hy, h⟩ := Option.bind_eq_some_iff.1 h
    obtain ⟨o, hends, hres⟩ := ends_of_loop hy rfl (.refl co.start st)
    simp only [hres] at h
    cases h
    exact ⟨o, hends, rfl⟩
  · rintro ⟨o, hends, rfl⟩
    cases hends with
    | @coReturn l f st' v hreach hstep =>
      have hround := round_return (ParsePromise.init T st') l hstep
      have hl := loop_of_reaches hreach []
      rw [List.nil_append, loop_done hround] at hl
      simp only [hl]; rfl
    | @throw l f st' hreach hstep =>
      have hround := round_throw (ParsePromise.init T st') l hstep
      have hl := loop_of_reaches hreach []
      rw [List.nil_append, loop_done hround] at hl
      simp only [hl]; rfl
    | @failed g V l f st' p next hreach hstep hrun =>
      have hround := round_await (ParsePromise.init T st') l hstep
      rw [show (ParsePromise.init T st').state = st' from rfl, hrun] at hround
      have hl := loop_of_reaches hreach []
      rw [List.nil_append, loop_done hround] at hl
      simp only [hl]; rfl

theorem Reaches.good (hk : co.AwaitsKeepNonNull) (h : co.Reaches f st l f' st')
    (hst : st.good = true) : st'.good = true := by
  induction h with
  | refl => exact hst
  | @await g V f f' st st₁ st' p next v l hstep hrun _ ih =>
    have hp := hk f
    rw [hstep] at hp
    exact ih (hp st st₁ v hst hrun)

theorem isSome_loop_round (hk : co.AwaitsKeepNonNull) (hr : co.AwaitsReturn) (hf : Acc co.Next f)
    {promise : ParsePromise T} (hst : promise.state.good = true) :
    (loop co.round (f, promise, l)).isSome := by
  induction hf generalizing promise l with
  | intro f _ ih =>
    rcases hstep : co.step f with ⟨p, next⟩ | _ | v
    · have hround := round_await promise l hstep
      have hp := hk f
      have htotal := hr f
      rw [hstep] at hp htotal
      rcases hrun : p.run promise.state with _ | _ | ⟨st', v⟩ <;> rw [hrun] at hround
      · have hsome := htotal promise.state hst
        rw [hrun] at hsome; cases hsome
      · rw [loop_done hround]; rfl
      · have hnext : co.Next (next v) f := by
          unfold Next
          rw [hstep]
          exact ⟨v, rfl⟩
        have hgood : st'.good = true := hp promise.state st' v hst hrun
        rw [loop_next hround]
        exact ih (next v) hnext hgood
    · rw [loop_done (round_throw promise l hstep)]; rfl
    · rw [loop_done (round_return promise l hstep)]; rfl

/-- A finite body that awaits parsers that return returns. -/
theorem isSome_drive (hk : co.AwaitsKeepNonNull) (hr : co.AwaitsReturn) (hf : Acc co.Next co.start)
    (hst : st.good = true) : (co.drive st).isSome := by
  have hinit : (ParsePromise.init T st).state.good = true := hst
  obtain ⟨y, hy⟩ := Option.isSome_iff_exists.1 (isSome_loop_round (l := []) hk hr hf hinit)
  obtain ⟨o, hends, -⟩ := ends_of_loop hy rfl (.refl co.start st)
  rw [drive_eq_some_iff.2 ⟨o, hends, rfl⟩]; rfl

end Coroutine

/-! ### `make_w_coro` awaits its parsers in turn -/

theorem loop_makeStep {co : Coroutine T} : {gs : List Bool} → {Vs : List ValueType} →
    (ps : Parsers gs Vs) → (construct : ValuesOf Vs → T) → (emb : MakeFrame Vs → co.Frame) →
    (∀ frame, co.step (emb frame) = (makeStep ps construct frame).map emb) → (st : State) →
    (l : List (co.Frame × State)) →
    (loop co.round (emb (MakeFrame.start Vs), ParsePromise.init T st, l)).bind (·.1.toResult) =
      (ps.runAll st).map fun o => Coroutine.resultOf (o.map fun x => (x.1, construct x.2))
  | _, _, .nil, construct, emb, h, st, l => by
    have hround := Coroutine.round_return (ParsePromise.init T st) l (h ())
    rw [show MakeFrame.start [] = () from rfl, loop_done hround]; rfl
  | _, V :: Vs, .cons p ps, construct, emb, h, st, l => by
    have hround := Coroutine.round_await (ParsePromise.init T st) l (h none)
    rw [show (ParsePromise.init T st).state = st from rfl] at hround
    rw [show MakeFrame.start (V :: Vs) = none from rfl, Parsers.runAll]
    rcases hrun : p.run st with _ | _ | ⟨st', v⟩ <;> rw [hrun] at hround
    · rw [loop_none hround, bind_none hrun]; rfl
    · rw [loop_done hround, bind_fail hrun]; rfl
    · have ih := loop_makeStep ps (fun vs => construct (v, vs)) (fun frame => emb (some (v, frame)))
        (fun frame => by
          rw [h, makeStep]
          rcases makeStep ps (fun vs => construct (v, vs)) frame with ⟨p, next⟩ | _ | v <;> rfl) st'
        (l ++ [(emb none, st)])
      rw [loop_next hround, bind_some hrun, map_apply, Option.map_map]
      refine ih.trans ?_
      rcases ps.runAll st' with _ | _ | x <;> rfl

theorem Coroutine.parse_toParser (co : Coroutine T) (st : State) :
    co.toParser.parse st = (loop co.round (co.start, ParsePromise.init T st, [])).bind (·.1.toResult) := by
  show Option.map Prod.fst ((loop _ _).bind _) = _
  rcases loop co.round (co.start, ParsePromise.init T st, []) with _ | ⟨promise, awaited⟩
  · rfl
  · show Option.map _ (promise.toResult.bind _) = promise.toResult
    rcases promise.toResult with _ | r <;> rfl

theorem makeWCoro_eq (construct : ValuesOf Vs → T) (ps : Parsers gs Vs) :
    makeWCoro construct ps = makeVariadic construct ps := by
  rw [makeVariadic_eq]
  refine Parser.ext fun st => ?_
  let co : Coroutine T := ⟨MakeFrame Vs, MakeFrame.start Vs, makeStep ps construct⟩
  have h := @loop_makeStep _ co _ _ ps construct id (fun frame => by
      show makeStep ps construct frame = _
      rcases makeStep ps construct frame with ⟨p, next⟩ | _ | v <;> rfl) st []
  refine (Coroutine.parse_toParser _ st).trans (h.trans ?_)
  rw [Parser.parse_ofAttempt, map_apply]
  rcases ps.runAll st with _ | _ | ⟨st', vs⟩ <;> rfl

/-- `make_w_coro` and `make` do the same on non-null states. -/
theorem run_makeWCoro (construct : ValuesOf Vs → T) {ps : Parsers gs Vs} (hps : ps.KeepNonNull)
    {st : State} (hst : st.good = true) :
    (makeWCoro construct ps).run st = (make construct ps).run st := by
  have hk : Keeps (·.good = true) (·.good = true) (Attempt.map construct ps.runAll) :=
    (Parsers.keeps_runAll hps).map construct
  rw [makeWCoro_eq, makeVariadic_eq, make_eq, run_ofAttempt_of_good hk (fun h => by cases h) hst,
    run_ofAttempt_of_good hk (neverFails_make construct ps) hst]

/-- A coroutine parser is its body read as state and failure: it succeeds exactly when all awaits on
the way to a `co_return` succeed, each on the state that the one before left, and fails at the first
failure or throw, with no await after it. It returns when the body is finite and what it awaits
returns. -/
theorem coroutine_refines (co : Coroutine T) (construct : ValuesOf Vs → W) (ps : Parsers gs Vs)
    {st : State} (hst : st.good = true) (hco : co.AwaitsKeepNonNull) (hps : ps.KeepNonNull) :
    (∀ r l, co.drive st = some (r, l) ∧ GetResult.toBool (g := false) r = true ↔
      ∃ f st' v, co.Reaches co.start st l f st' ∧ co.step f = .coReturn v ∧ r = Result.of st' v) ∧
    (∀ r l, co.drive st = some (r, l) ∧ GetResult.toBool (g := false) r = false ↔
      r = .failed ∧ co.Ends st l none) ∧
    (co.AwaitsReturn → Acc co.Next co.start → (co.drive st).isSome) ∧
    (makeWCoro construct ps).run st = (make construct ps).run st := by
  have hfailed : GetResult.toBool (g := false) (Result.failed : Result T) = false := toBool_failed
  -- a `co_return` has a state that is not null, so that its result is a success
  have hof : ∀ {l f st'} (v : T), co.Reaches co.start st l f st' →
      GetResult.toBool (g := false) (Result.of st' v) = true := fun v hreach =>
    (toBool_of (g := false) _ v).trans (kept_of_good (hreach.good hco hst))
  refine ⟨fun r l => ⟨?_, ?_⟩, fun r l => ⟨?_, ?_⟩,
    fun hr hf => Coroutine.isSome_drive hco hr hf hst, run_makeWCoro construct hps hst⟩
  · rintro ⟨h, hb⟩
    obtain ⟨o, hends, rfl⟩ := Coroutine.drive_eq_some_iff.1 h
    cases hends with
    | coReturn hreach hstep => exact ⟨_, _, _, hreach, hstep, rfl⟩
    | throw => exact absurd hb (by rw [Coroutine.resultOf, hfailed]; exact Bool.false_ne_true)
    | failed => exact absurd hb (by rw [Coroutine.resultOf, hfailed]; exact Bool.false_ne_true)
  · rintro ⟨f, st', v, hreach, hstep, rfl⟩
    exact ⟨Coroutine.drive_eq_some_iff.2 ⟨_, .coReturn hreach hstep, rfl⟩, hof v hreach⟩
  · rintro ⟨h, hb⟩
    obtain ⟨o, hends, rfl⟩ := Coroutine.drive_eq_some_iff.1 h
    rcases o with _ | ⟨st', v⟩
    · exact ⟨rfl, hends⟩
    · cases hends with
      | coReturn hreach hstep => exact absurd ((hof v hreach).symm.trans hb) (by decide)
  · rintro ⟨rfl, hends⟩
    exact ⟨Coroutine.drive_eq_some_iff.2 ⟨none, hends, rfl⟩, hfailed⟩

/-- The frames of `trueAfterBlanks`: before each of its two awaits, and with the boolean read. -/
inductive BlanksFrame where
  | start
  | skipped
  | read (b : Bool)

/-- A coroutine that awaits `whitespace` and `parse_bool`, throws on `false` and returns `true`. -/
def trueAfterBlanks (mem : Memory) : Coroutine bool where
  Frame := BlanksFrame
  start := .start
  step
    | .start => .coAwait (whitespace mem) fun _ => .skipped
    | .skipped => .coAwait (boolParser mem) .read
    | .read true => .coReturn true
    | .read false => .throw

/-- A `T {co_await ...}` that keeps the second of two values. -/
def secondValue : ValuesOf [empty, bool] → bool := fun (_, b, _) => b

/-- On ` true false x` the coroutine returns, on ` false x` it throws, and on ` x` its second await
fails. It returns on every non-null state. `make_w_coro` of the two parsers takes ` false`. -/
theorem coroutine_refines_blanks :
    let mem := Memory.ofText [ch ' ', ch 't', ch 'r', ch 'u', ch 'e', ch ' ', ch 'f', ch 'a', ch 'l',
      ch 's', ch 'e', ch ' ', ch 'x']
    let co := trueAfterBlanks mem
    let ps : Parsers [true, false] [empty, bool] := .cons (whitespace mem) (.cons (boolParser mem) .nil)
    co.drive ⟨1, 14⟩ = some (.of ⟨6, 14⟩ true, [(.start, ⟨1, 14⟩), (.skipped, ⟨2, 14⟩)]) ∧
      co.drive ⟨6, 14⟩ = some (.failed, [(.start, ⟨6, 14⟩), (.skipped, ⟨7, 14⟩)]) ∧
      co.drive ⟨12, 14⟩ = some (.failed, [(.start, ⟨12, 14⟩), (.skipped, ⟨13, 14⟩)]) ∧
      (∀ st : State, st.good = true → (co.drive st).isSome) ∧
      (makeWCoro secondValue ps).run ⟨6, 14⟩ = some (some (⟨12, 14⟩, false)) ∧
      (makeWCoro secondValue ps).run ⟨12, 14⟩ = some none := by
  intro mem co ps
  have hskip : (whitespace mem).KeepsNonNull := (zeroOrMoreChars_advances _).keepsNonNull
  have hbool : (boolParser mem).KeepsNonNull := boolParser_advances.keepsNonNull
  have hco : co.AwaitsKeepNonNull := by
    rintro (_ | _ | _ | _)
    exacts [hskip, hbool, trivial, trivial]
  have h := fun (st : State) (hst : st.good = true) =>
    coroutine_refines co secondValue ps hst hco ⟨hskip, hbool, trivial⟩
  have hreach : ∀ {st st₁ st₂ : State} {b : Bool}, (whitespace mem).run st = some (some (st₁, ())) →
      (boolParser mem).run st₁ = some (some (st₂, b)) →
      co.Reaches co.start st [(.start, st), (.skipped, st₁)] (.read b) st₂ :=
    fun h₁ h₂ => .await rfl h₁ (.await rfl h₂ (.refl _ _))
  have hreturn : co.AwaitsReturn := by
    rintro (_ | _ | _ | _)
    · exact fun st _ => rfl
    · intro st _
      unfold boolParser Parser.run
      dsimp only
      split
      · rfl
      · split <;> rfl
    all_goals trivial
  have hfinite : Acc co.Next co.start := by
    refine ⟨_, ?_⟩
    rintro _ ⟨-, rfl⟩
    refine ⟨_, ?_⟩
    rintro _ ⟨b, rfl⟩
    refine ⟨_, fun f hf => ?_⟩
    cases b <;> exact hf.elim
  refine ⟨?_, ?_, ?_, fun st hst => (h st hst).2.2.1 hreturn hfinite, ?_, ?_⟩
  · have hread : co.Reaches co.start ⟨1, 14⟩ _ (.read true) ⟨6, 14⟩ := hreach rfl rfl
    exact (((h ⟨1, 14⟩ rfl).1 _ _).2 ⟨.read true, ⟨6, 14⟩, true, hread, rfl, rfl⟩).1
  · have hends : co.Ends ⟨6, 14⟩ _ none := .throw (@hreach _ _ ⟨12, 14⟩ false rfl rfl) rfl
    exact (((h ⟨6, 14⟩ rfl).2.1 _ _).2 ⟨rfl, hends⟩).1
  · have hskipped : co.Reaches co.start ⟨12, 14⟩ [(.start, ⟨12, 14⟩)] .skipped ⟨13, 14⟩ :=
      .await rfl rfl (.refl _ _)
    exact (((h ⟨12, 14⟩ rfl).2.1 _ _).2 ⟨rfl, .failed hskipped rfl rfl⟩).1
  · exact (h ⟨6, 14⟩ rfl).2.2.2.trans rfl
  · exact (h ⟨12, 14⟩ rfl).2.2.2.trans rfl

end Noam
