import Noam.Continuity
import Noam.Folding
import Noam.Frames

/-!
# What coroutine parsers return that await each other

Each body is a parser when the coroutine parsers that it awaits are given (`Coroutine.toParser`), so the
coroutine parsers are a solution of as many equations. The machine over their frames returns what the
least solution returns, and does not return where that does not.
-/

namespace Noam
open GetResult ValueType Loop Attempt

variable {ι : Type}

namespace Coroutines
variable (P : Coroutines ι) {r i j : ι} {m m' : P.Machine r} {g : Bool} {V : ValueType}

/-- The body of `i`, with a parser for each coroutine parser that it awaits. -/
def coroutine (qs : (j : ι) → Parser false (P.Value j)) (i : ι) : Coroutine (P.Value i) where
  Frame := P.Frame i
  start := P.start i
  step frame := match P.step i frame with
    | .coAwait p next => .coAwait p next
    | .coAwaitCall j next => .coAwait (qs j) next
    | .throw => .throw
    | .coReturn value => .coReturn value

/-- The parsers with the given results. -/
def parsers (f : (x : ι × State) → Option (Result (P.Value x.1))) (j : ι) : Parser false (P.Value j) :=
  ⟨fun st => f (j, st)⟩

/-- The results of the bodies, from results of the coroutine parsers that they await. -/
def onCalls (f : (x : ι × State) → Option (Result (P.Value x.1))) (x : ι × State) :
    Option (Result (P.Value x.1)) := (P.coroutine (P.parsers f) x.1).toParser.parse x.2

/-- The least solution of the equations. -/
def parser : (i : ι) → Parser false (P.Value i) := P.parsers (lfp P.onCalls)

/-! ### Rounds of a body -/

/-- The frame, the promise and the awaits that were executed. -/
abbrev Body (i : ι) : Type := P.Frame i × ParsePromise (P.Value i) × List (P.Frame i × State)

section
variable {P} (qs : (j : ι) → Parser false (P.Value j))

def bodyRound (i : ι) (x : P.Body i) :
    Option (Round (P.Body i) (ParsePromise (P.Value i) × List (P.Frame i × State))) :=
  (P.coroutine qs i).round x

/-- The body after an await with this outcome. -/
def roundAfter (frame : P.Frame i) (promise : ParsePromise (P.Value i)) (l : List (P.Frame i × State))
    (next : V → P.Frame i) :
    Option (State × V) → Round (P.Body i) (ParsePromise (P.Value i) × List (P.Frame i × State))
  | some (st, v) => .next (next v, { promise with state := st }, l ++ [(frame, promise.state)])
  | none => .done (promise, l ++ [(frame, promise.state)])

variable {frame : P.Frame i} {promise : ParsePromise (P.Value i)} (l : List (P.Frame i × State))

theorem bodyRound_await {p : Parser g V} {next : V → P.Frame i} (hstep : P.step i frame = .coAwait p next) :
    bodyRound qs i (frame, promise, l) = (p.run promise.state).map (roundAfter frame promise l next) := by
  have hco : (P.coroutine qs i).step frame = .coAwait p next := by simp only [coroutine, hstep]
  refine (Coroutine.round_await promise l hco).trans ?_
  rcases p.run promise.state with _ | _ | x <;> rfl

theorem bodyRound_call {next : P.Value j → P.Frame i} (hstep : P.step i frame = .coAwaitCall j next) :
    bodyRound qs i (frame, promise, l) =
      ((qs j).run promise.state).map (roundAfter frame promise l next) := by
  have hco : (P.coroutine qs i).step frame = .coAwait (qs j) next := by simp only [coroutine, hstep]
  refine (Coroutine.round_await promise l hco).trans ?_
  rcases (qs j).run promise.state with _ | _ | x <;> rfl

theorem bodyRound_throw (hstep : P.step i frame = .throw) :
    bodyRound qs i (frame, promise, l) = some (.done (promise.unhandledException, l)) := by
  have hco : (P.coroutine qs i).step frame = .throw := by simp only [coroutine, hstep]
  exact Coroutine.round_throw promise l hco

theorem bodyRound_return {value : P.Value i} (hstep : P.step i frame = .coReturn value) :
    bodyRound qs i (frame, promise, l) = some (.done (promise.returnValue value, l)) := by
  have hco : (P.coroutine qs i).step frame = .coReturn value := by simp only [coroutine, hstep]
  exact Coroutine.round_return promise l hco

end

/-! ### The equations have a least solution -/

/-- The rounds of a body have limits when the parsers have that it awaits. -/
theorem limit_bodyRound {qs : Nat → (j : ι) → Parser false (P.Value j)}
    {q : (j : ι) → Parser false (P.Value j)} (h : ∀ j, (q j).Limit fun n => qs n j) (x : P.Body i) :
    Loop.Limit (fun n => bodyRound (qs n) i x) (bodyRound q i x) := by
  obtain ⟨frame, promise, l⟩ := x
  rcases hstep : P.step i frame with ⟨p, next⟩ | ⟨j, next⟩ | _ | value
  · simp only [bodyRound_await _ l hstep]
    exact .const _
  · simp only [bodyRound_call _ l hstep]
    exact ((h j).run promise.state).map _
  · simp only [bodyRound_throw _ l hstep]
    exact .const _
  · simp only [bodyRound_return _ l hstep]
    exact .const _

theorem parse_coroutine (qs : (j : ι) → Parser false (P.Value j)) (st : State) :
    (P.coroutine qs i).toParser.parse st =
      (loop (bodyRound qs i) (P.start i, ParsePromise.init _ st, [])).bind (·.1.toResult) :=
  Coroutine.parse_toParser _ st

theorem continuous_onCalls : Continuous P.onCalls := by
  rintro fs f hf ⟨i, st⟩
  have hqs : ∀ j, (P.parsers f j).Limit fun n => P.parsers (fs n) j := fun j st => hf (j, st)
  simp only [onCalls, parse_coroutine]
  exact (limit_loop (P.limit_bodyRound hqs) _).bind fun _ => .const _

/-- The least solution is a solution. -/
theorem parser_eq (i : ι) : P.parser i = (P.coroutine P.parser i).toParser :=
  Parser.ext fun st => congrFun P.continuous_onCalls.lfp_eq (i, st)

/-! ### A run keeps its result -/

section
variable {P} (qs : (j : ι) → Parser false (P.Value j))

/-- What the body of `i` returns from a frame on. -/
def resultFrom (frame : P.Frame i) (promise : ParsePromise (P.Value i)) : Option (Result (P.Value i)) :=
  (loop (bodyRound qs i) (frame, promise, [])).bind (·.1.toResult)

/-- What it returns after an await with this outcome. -/
def resultAfter (promise : ParsePromise (P.Value i)) (next : V → P.Frame i) :
    Option (State × V) → Option (Result (P.Value i))
  | some (st, v) => resultFrom qs (next v) { promise with state := st }
  | none => promise.toResult

/-- What the outermost call returns once a call of `i` has returned. -/
def Callers.resultOf : {i : ι} → P.Callers r i → Result (P.Value i) → Option (Result (P.Value r))
  | _, .outside, result => some result
  | _, .awaits _ promise next callers, result =>
    (resultAfter qs promise next (outcome (g := false) result)).bind callers.resultOf

/-- What the outermost call returns from here on. -/
def Control.result : P.Control r → Option (Result (P.Value r))
  | .call i st callers => ((qs i).parse st).bind (callers.resultOf qs)
  | .created i _ promise callers => (resultFrom qs (P.start i) promise).bind (callers.resultOf qs)
  | .running _ _ promise frame callers => (resultFrom qs frame promise).bind (callers.resultOf qs)
  | .suspended _ _ promise callers => promise.toResult.bind (callers.resultOf qs)
  | .returned _ result callers => callers.resultOf qs result

variable {frame : P.Frame i} {promise : ParsePromise (P.Value i)}

theorem resultFrom_log (l : List (P.Frame i × State)) :
    (loop (bodyRound qs i) (frame, promise, l)).bind (·.1.toResult) = resultFrom qs frame promise := by
  have hfst : (loop (bodyRound qs i) (frame, promise, l)).map Prod.fst =
      (loop (bodyRound qs i) (frame, promise, [])).map Prod.fst :=
    @Coroutine.loop_round_fst _ (P.coroutine qs i) frame promise l
  have hbind := congrArg (Option.bind · ParsePromise.toResult) hfst
  simp only [Option.bind_map] at hbind
  exact hbind

theorem resultFrom_after {next : V → P.Frame i} {o : Option (Option (State × V))}
    (hround : bodyRound qs i (frame, promise, []) = o.map (roundAfter frame promise [] next)) :
    resultFrom qs frame promise = o.bind (resultAfter qs promise next) := by
  unfold resultFrom
  rcases o with _ | _ | ⟨st, v⟩
  · rw [loop_none hround]; rfl
  · rw [loop_done hround]; rfl
  · rw [loop_next hround]
    exact resultFrom_log qs _

/-- The body goes on after an await, or its frame is suspended. -/
theorem result_afterAwait (handle : Nat) (next : V → P.Frame i) (callers : P.Callers r i)
    (o : Option (State × V)) : (afterAwait handle promise next callers o).result qs =
      (resultAfter qs promise next o).bind (callers.resultOf qs) := by
  rcases o with _ | x <;> rfl

theorem result_awaited {handle : Nat} {next : V → P.Frame i} {callers : P.Callers r i}
    {result : GetResult V g} {heap : Heap} (h : awaited handle promise next callers result heap = some m) :
    m.control.result qs = (resultAfter qs promise next result.outcome).bind (callers.resultOf qs) := by
  rw [← result_afterAwait qs handle]
  rcases ho : result.outcome with _ | ⟨st, v⟩
  · have hb : result.toBool = false := by rw [toBool_eq, ho]; rfl
    simp only [awaited, hb] at h
    obtain ⟨heap', -, h⟩ := Option.bind_eq_some_iff.1 h
    cases h; rfl
  · obtain ⟨hb, rfl, hv⟩ := outcome_eq_some ho
    simp only [awaited, hb, hv] at h
    cases h; rfl

/-- A step does not change what the outermost call returns, for any solution of the equations. -/
theorem result_step (hqs : ∀ i, qs i = (P.coroutine qs i).toParser) (h : m.step = some m') :
    m'.control.result qs = m.control.result qs := by
  obtain ⟨control, heap⟩ := m
  cases control with
  | call i st callers =>
    cases h
    have hparse : (qs i).parse st = resultFrom qs (P.start i) (ParsePromise.init _ st) := by
      rw [hqs i, parse_coroutine]; rfl
    rw [Control.result, Control.result, hparse]
    rfl
  | created i handle promise callers =>
    obtain ⟨heap', -, h⟩ := Option.bind_eq_some_iff.1 h
    cases h; rfl
  | running i handle promise frame callers =>
    rcases hstep : P.step i frame with ⟨p, next⟩ | ⟨j, next⟩ | _ | value <;>
      simp only [Machine.step, hstep] at h
    · obtain ⟨result, hp, h⟩ := Option.bind_eq_some_iff.1 h
      rw [result_awaited qs h, Control.result, resultFrom_after qs (bodyRound_await qs [] hstep),
        Parser.run_of_parse hp]
      rfl
    · cases h
      simp only [Control.result, resultFrom_after qs (bodyRound_call qs [] hstep)]
      rw [Parser.run]
      rcases (qs j).parse promise.state with _ | result <;> rfl
    · obtain ⟨heap', -, h⟩ := Option.bind_eq_some_iff.1 h
      cases h
      simp only [Control.result, resultFrom, loop_done (bodyRound_throw qs [] hstep)]; rfl
    · obtain ⟨heap', -, h⟩ := Option.bind_eq_some_iff.1 h
      cases h
      simp only [Control.result, resultFrom, loop_done (bodyRound_return qs [] hstep)]; rfl
  -- the result is taken from the promise before the frame is destroyed
  | suspended i handle promise callers =>
    obtain ⟨result, hresult, h⟩ := Option.bind_eq_some_iff.1 h
    obtain ⟨heap', -, h⟩ := Option.bind_eq_some_iff.1 h
    cases h
    simp only [Control.result, hresult]; rfl
  | returned i result callers =>
    cases callers with
    | outside => cases h
    | awaits handle promise next callers => exact result_awaited qs h

theorem result_steps (hqs : ∀ i, qs i = (P.coroutine qs i).toParser) (h : m.Steps m') :
    m'.control.result qs = m.control.result qs := by
  induction h with
  | refl => rfl
  | tail _ hstep ih => exact (result_step qs hqs hstep).trans ih

end

/-! ### What the parsers return is reached -/

section
variable {P} {qs : (j : ι) → Parser false (P.Value j)} {frame : P.Frame i} {handle : Nat}
variable {promise : ParsePromise (P.Value i)} {callers : P.Callers r i} {heap : Heap}

/-- Whatever `qs` returns the machine returns, too. -/
def Reached (P : Coroutines ι) (r : ι) (qs : (j : ι) → Parser false (P.Value j)) : Prop :=
  ∀ (j : ι) (st : State) (result : Result (P.Value j)) (callers : P.Callers r j) (heap : Heap),
    (qs j).parse st = some result → Machine.Inv ⟨.call j st callers, heap⟩ →
      ∃ heap', Machine.Steps ⟨.call j st callers, heap⟩ ⟨.returned j result callers, heap'⟩

theorem steps_await {p : Parser g V} {next : V → P.Frame i} {o : Option (State × V)}
    (hinv : Machine.Inv ⟨.running i handle promise frame callers, heap⟩)
    (hstep : P.step i frame = .coAwait p next) (hrun : p.run promise.state = some o) :
    ∃ heap', Machine.Steps ⟨.running i handle promise frame callers, heap⟩
      ⟨afterAwait handle promise next callers o, heap'⟩ := by
  obtain ⟨result, hp, rfl⟩ := Option.map_eq_some_iff.1 hrun
  obtain ⟨heap', hm, -⟩ := step_await hinv hstep hp
  exact ⟨heap', .single hm⟩

theorem steps_awaitCall (hqs : P.Reached r qs) {next : P.Value j → P.Frame i}
    {o : Option (State × P.Value j)}
    (hinv : Machine.Inv ⟨.running i handle promise frame callers, heap⟩)
    (hstep : P.step i frame = .coAwaitCall j next) (hrun : (qs j).run promise.state = some o) :
    ∃ heap', Machine.Steps ⟨.running i handle promise frame callers, heap⟩
      ⟨afterAwait handle promise next callers o, heap'⟩ := by
  obtain ⟨result, hp, rfl⟩ := Option.map_eq_some_iff.1 hrun
  obtain ⟨hcall, hinv⟩ := step_awaitCall hinv hstep
  obtain ⟨heap₁, hsteps⟩ := hqs j promise.state result _ heap hp hinv
  obtain ⟨heap₂, hreturned, -⟩ := step_returned (hsteps.inv hinv)
  exact ⟨heap₂, Machine.Steps.head hcall (hsteps.tail hreturned)⟩

/-- The machine follows the rounds of a body. -/
theorem steps_loop (hqs : P.Reached r qs) {l : List (P.Frame i × State)}
    {stopped : ParsePromise (P.Value i) × List (P.Frame i × State)}
    (hloop : loop (bodyRound qs i) (frame, promise, l) = some stopped)
    (hinv : Machine.Inv ⟨.running i handle promise frame callers, heap⟩) :
    ∃ heap', Machine.Steps ⟨.running i handle promise frame callers, heap⟩
      ⟨.suspended i handle stopped.1 callers, heap'⟩ := by
  refine loop_induct (k := bodyRound qs i) (motive := fun x stopped => ∀ heap,
    Machine.Inv ⟨.running i handle x.2.1 x.1 callers, heap⟩ →
      ∃ heap', Machine.Steps ⟨.running i handle x.2.1 x.1 callers, heap⟩
        ⟨.suspended i handle stopped.1 callers, heap'⟩)
    (fun x stopped hround heap hinv => ?_) (fun x x' stopped hround ih heap hinv => ?_) hloop heap hinv
  -- the rounds that stop come first, and then those that go on
  all_goals
    obtain ⟨frame, promise, l⟩ := x
    rcases hstep : P.step i frame with ⟨p, next⟩ | ⟨j, next⟩ | _ | value
  · rw [bodyRound_await qs l hstep] at hround
    obtain ⟨_ | ⟨st, v⟩, hrun, hround⟩ := Option.map_eq_some_iff.1 hround <;> cases hround
    exact steps_await hinv hstep hrun
  · rw [bodyRound_call qs l hstep] at hround
    obtain ⟨_ | ⟨st, v⟩, hrun, hround⟩ := Option.map_eq_some_iff.1 hround <;> cases hround
    exact steps_awaitCall hqs hinv hstep hrun
  · rw [bodyRound_throw qs l hstep] at hround
    cases hround
    obtain ⟨heap', hm, -⟩ := step_throw hinv hstep
    exact ⟨heap', .single hm⟩
  · rw [bodyRound_return qs l hstep] at hround
    cases hround
    obtain ⟨heap', hm, -⟩ := step_return hinv hstep
    exact ⟨heap', .single hm⟩
  · rw [bodyRound_await qs l hstep] at hround
    obtain ⟨_ | ⟨st, v⟩, hrun, hround⟩ := Option.map_eq_some_iff.1 hround <;> cases hround
    obtain ⟨heap₁, hsteps⟩ := steps_await hinv hstep hrun
    obtain ⟨heap₂, hrest⟩ := ih heap₁ (hsteps.inv hinv)
    exact ⟨heap₂, hsteps.trans hrest⟩
  · rw [bodyRound_call qs l hstep] at hround
    obtain ⟨_ | ⟨st, v⟩, hrun, hround⟩ := Option.map_eq_some_iff.1 hround <;> cases hround
    obtain ⟨heap₁, hsteps⟩ := steps_awaitCall hqs hinv hstep hrun
    obtain ⟨heap₂, hrest⟩ := ih heap₁ (hsteps.inv hinv)
    exact ⟨heap₂, hsteps.trans hrest⟩
  · rw [bodyRound_throw qs l hstep] at hround
    cases hround
  · rw [bodyRound_return qs l hstep] at hround
    cases hround

/-- One more level of calls. -/
theorem Reached.onCalls {f : (x : ι × State) → Option (Result (P.Value x.1))}
    (h : P.Reached r (P.parsers f)) : P.Reached r (P.parsers (P.onCalls f)) := by
  intro i st result callers heap hparse hinv
  change (P.coroutine (P.parsers f) i).toParser.parse st = some result at hparse
  rw [parse_coroutine] at hparse
  obtain ⟨stopped, hloop, hresult⟩ := Option.bind_eq_some_iff.1 hparse
  obtain ⟨handle, heap₁, hcall, hinv⟩ := step_call hinv
  obtain ⟨heap₂, hcreated, hinv⟩ := step_created hinv
  obtain ⟨heap₃, hbody⟩ := steps_loop h hloop hinv
  obtain ⟨heap₄, hsuspended, -⟩ := step_suspended (hbody.inv hinv) hresult
  exact ⟨heap₄, Machine.Steps.head hcall (Machine.Steps.head hcreated (hbody.tail hsuspended))⟩

theorem reached_iterates (n : Nat) : P.Reached r (P.parsers (iterates P.onCalls n)) := by
  induction n with
  | zero => intro j st result callers heap hparse _; cases hparse
  | succ n ih => exact ih.onCalls

theorem reached_of_parse : P.Reached r P.parser := by
  intro j st result callers heap hparse hinv
  obtain ⟨n, hn⟩ := (P.continuous_onCalls.limit_lfp (j, st)).reached result hparse
  exact reached_iterates n j st result callers heap hn hinv

end

/-- The machine over the frames returns what the least solution of the equations returns, and that is
what every solution returns: the parsers of coroutines that await each other, however often, are their
bodies read as state and failure. -/
theorem calls_return_iff (i : ι) (st : State) (result : Result (P.Value i)) :
    ((∃ heap, (P.initial i st).Steps ⟨.returned i result .outside, heap⟩) ↔
        (P.parser i).parse st = some result) ∧
      ((P.parser i).parse st = some result ↔ ∀ qs : (j : ι) → Parser false (P.Value j),
        (∀ j, qs j = (P.coroutine qs j).toParser) → (qs i).parse st = some result) := by
  have hinitial : ∀ qs : (j : ι) → Parser false (P.Value j),
      (P.initial i st).control.result qs = (qs i).parse st := by
    intro qs
    show ((qs i).parse st).bind some = _
    rcases (qs i).parse st with _ | result <;> rfl
  have hreached : (P.parser i).parse st = some result →
      ∃ heap, (P.initial i st).Steps ⟨.returned i result .outside, heap⟩ :=
    fun h => reached_of_parse i st result .outside [] h (inv_initial i st)
  have hsolutions : (∃ heap, (P.initial i st).Steps ⟨.returned i result .outside, heap⟩) →
      ∀ qs : (j : ι) → Parser false (P.Value j),
        (∀ j, qs j = (P.coroutine qs j).toParser) → (qs i).parse st = some result := by
    rintro ⟨heap, hsteps⟩ qs hqs
    rw [← hinitial qs, ← result_steps qs hqs hsteps]
    rfl
  exact ⟨⟨fun h => hsolutions h P.parser P.parser_eq, hreached⟩,
    fun h => hsolutions (hreached h), fun h => h P.parser P.parser_eq⟩

/-! ### A coroutine that awaits no other -/

/-- The frames of a single coroutine. -/
def alone {T : ValueType} (co : Coroutine T) : Coroutines Unit where
  Value _ := T
  Frame _ := co.Frame
  start _ := co.start
  step _ frame := match co.step frame with
    | .coAwait p next => .coAwait p next
    | .throw => .throw
    | .coReturn value => .coReturn value

theorem parser_alone {T : ValueType} (co : Coroutine T) : (alone co).parser () = co.toParser := by
  have hco : (alone co).coroutine (alone co).parser () = co := by
    show Coroutine.mk co.Frame co.start _ = co
    congr 1
    funext frame
    simp only [alone]
    rcases co.step frame with ⟨p, next⟩ | _ | value <;> rfl
  exact (parser_eq _ ()).trans (congrArg Coroutine.toParser hco)

end Coroutines

end Noam
