import Mathlib.Logic.Relation
import Noam.Coroutine

/-!
# The frames of coroutine parsers (`coupling/parse_promise.hpp`)

The call of a coroutine parser creates a frame that is suspended at once. The conversion of the return
object to `result<T>` resumes it, and the destructor of the return object destroys it. A body may await
other coroutine parsers, itself too: their frames are created, resumed and destroyed while its own frame
runs. The machine below does this one step at a time. It refuses to resume a frame that is not suspended
or has finished, and to destroy one that is not suspended.
-/

namespace Noam
open GetResult ValueType Loop Attempt

/-! ### The heap -/

/-- What happens to a frame: `suspend` is a failed await, `finish` is `final_suspend`. -/
inductive FrameEvent where
  | create | resume | suspend | finish | destroy
  deriving DecidableEq

open FrameEvent

/-- Whether a frame that `last` happened to is in order for the next event. -/
def FrameEvent.allows (last next : FrameEvent) : Bool :=
  match next with
  | create => false
  | resume => last = create || last = suspend
  | suspend => last = resume
  | finish => last = resume
  | destroy => last = create || last = suspend || last = finish

/-- The events of every frame that was created. A handle is an index. -/
abbrev Heap := List (List FrameEvent)

namespace Heap

def create (heap : Heap) : Heap := heap ++ [[FrameEvent.create]]

def record (heap : Heap) (handle : Nat) (event : FrameEvent) : Option Heap := do
  let events ← heap[handle]?
  let last ← events.getLast?
  if last.allows event then return heap.set handle (events ++ [event]) else none

end Heap

/-! ### The machine -/

variable {ι : Type}

/-- What a body does next: await a parser, await a coroutine parser, throw or return. -/
inductive Action (Value : ι → ValueType) (F : Type) (T : ValueType) : Type 1 where
  | coAwait {g : Bool} {V : ValueType} (p : Parser g V) (next : V → F)
  | coAwaitCall (j : ι) (next : Value j → F)
  | throw
  | coReturn (value : T)

/-- Coroutine parsers that may await each other. -/
structure Coroutines (ι : Type) : Type 1 where
  Value : ι → ValueType
  Frame : ι → Type
  start : (i : ι) → Frame i
  step : (i : ι) → Frame i → Action Value (Frame i) (Value i)

namespace Coroutines
variable (P : Coroutines ι) {r i j : ι}

/-- The frames that wait for the result of a call of `i`, down to a call of `r` outside of them all. -/
inductive Callers (r : ι) : ι → Type where
  | outside : Callers r r
  | awaits {i j : ι} (handle : Nat) (promise : ParsePromise (P.Value i))
      (next : P.Value j → P.Frame i) (callers : Callers r i) : Callers r j

/-- Where the run stands: before a call, after `initial_suspend`, in a body, after `handle.resume()`, and
after the return object is gone. -/
inductive Control (r : ι) : Type where
  | call (i : ι) (st : State) (callers : P.Callers r i)
  | created (i : ι) (handle : Nat) (promise : ParsePromise (P.Value i)) (callers : P.Callers r i)
  | running (i : ι) (handle : Nat) (promise : ParsePromise (P.Value i)) (frame : P.Frame i)
      (callers : P.Callers r i)
  | suspended (i : ι) (handle : Nat) (promise : ParsePromise (P.Value i)) (callers : P.Callers r i)
  | returned (i : ι) (result : Result (P.Value i)) (callers : P.Callers r i)

structure Machine (r : ι) : Type where
  control : P.Control r
  heap : Heap

variable {P}

/-- `await_ready` once the awaited parser has returned, then `await_resume` or `await_suspend`. -/
def awaited {g : Bool} {V : ValueType} (handle : Nat) (promise : ParsePromise (P.Value i))
    (next : V → P.Frame i) (callers : P.Callers r i) (result : GetResult V g) (heap : Heap) :
    Option (P.Machine r) :=
  match result.toBool, result.getValue? with
  | true, some value =>
    return ⟨.running i handle { promise with state := result.getState } (next value) callers, heap⟩
  | _, _ => do return ⟨.suspended i handle promise callers, ← heap.record handle .suspend⟩

def Machine.step : P.Machine r → Option (P.Machine r)
  | ⟨.call i st callers, heap⟩ =>
    return ⟨.created i heap.length (ParsePromise.init _ st) callers, heap.create⟩
  | ⟨.created i handle promise callers, heap⟩ => do
    return ⟨.running i handle promise (P.start i) callers, ← heap.record handle .resume⟩
  | ⟨.running i handle promise frame callers, heap⟩ =>
    match P.step i frame with
    | .coAwait p next => do awaited handle promise next callers (← p.parse promise.state) heap
    | .coAwaitCall j next =>
      return ⟨.call j promise.state (.awaits handle promise next callers), heap⟩
    | .throw => do
      return ⟨.suspended i handle promise.unhandledException callers, ← heap.record handle .finish⟩
    | .coReturn value => do
      return ⟨.suspended i handle (promise.returnValue value) callers, ← heap.record handle .finish⟩
  | ⟨.suspended i handle promise callers, heap⟩ => do
    return ⟨.returned i (← promise.toResult) callers, ← heap.record handle .destroy⟩
  | ⟨.returned _ result (.awaits handle promise next callers), heap⟩ =>
    awaited (g := false) handle promise next callers result heap
  | ⟨.returned _ _ .outside, _⟩ => none

def Machine.Steps : P.Machine r → P.Machine r → Prop :=
  Relation.ReflTransGen fun m m' => m.step = some m'

theorem Machine.Steps.head {m m₁ m₂ : P.Machine r} (h : m.step = some m₁) (hs : m₁.Steps m₂) :
    m.Steps m₂ := Relation.ReflTransGen.head h hs

variable (P) in
/-- The call of a coroutine parser when there are no frames. -/
def initial (i : ι) (st : State) : P.Machine i := ⟨.call i st .outside, []⟩

end Coroutines

/-! ### What is kept of the frames -/

/-- The whole life of a frame: it is resumed once, and then suspended by a failed await or finished. -/
def Ended (events : List FrameEvent) : Prop :=
  events = [.create, .resume, .suspend, .destroy] ∨ events = [.create, .resume, .finish, .destroy]

namespace Heap
variable {heap : Heap} {handle : Nat} {events : List FrameEvent} {stack : List (Nat × List FrameEvent)}

/-- Every frame is somewhere in its life, and of two frames that have not ended the older one runs. -/
structure Disciplined (heap : Heap) : Prop where
  lives : ∀ events ∈ heap, events ≠ [] ∧ ∃ life, Ended life ∧ events <+: life
  nested : ∀ (h h' : Nat) (events events' : List FrameEvent), h < h' → heap[h]? = some events → heap[h']? = some events' →
    ¬ Ended events → ¬ Ended events' → events = [.create, .resume]

/-- `stack` has the frames that have not ended, the newest first. -/
structure Live (heap : Heap) (stack : List (Nat × List FrameEvent)) : Prop where
  sorted : stack.Pairwise fun x y => y.1 < x.1
  events : ∀ x ∈ stack, heap[x.1]? = some x.2
  ended : ∀ (h : Nat) (events : List FrameEvent), heap[h]? = some events → h ∉ stack.map Prod.fst → Ended events

theorem Live.lt_length (hl : heap.Live stack) {x : Nat × List FrameEvent} (hx : x ∈ stack) :
    x.1 < heap.length := (List.getElem?_eq_some_iff.1 (hl.events x hx)).1

theorem Live.create (hl : heap.Live stack) :
    heap.create.Live ((heap.length, [.create]) :: stack) where
  sorted := List.pairwise_cons.2 ⟨fun _ hy => hl.lt_length hy, hl.sorted⟩
  events x hx := by
    rcases List.mem_cons.1 hx with rfl | hx
    · simp [Heap.create]
    · rw [Heap.create, List.getElem?_append_left (hl.lt_length hx)]
      exact hl.events x hx
  ended h events hget hnot := by
    simp only [List.map_cons, List.mem_cons, not_or] at hnot
    have hlt : h < heap.length := by
      have := (List.getElem?_eq_some_iff.1 hget).1
      simp only [Heap.create, List.length_append, List.length_singleton] at this
      omega
    rw [Heap.create, List.getElem?_append_left hlt] at hget
    exact hl.ended h events hget hnot.2

/-- The newest frame takes any event that it is in order for. -/
theorem Live.record (hl : heap.Live ((handle, events) :: stack)) {last event : FrameEvent}
    (hlast : events.getLast? = some last) (hallows : last.allows event = true) :
    ∃ heap', heap.record handle event = some heap' ∧
      heap'.Live ((handle, events ++ [event]) :: stack) := by
  have hget : heap[handle]? = some events := hl.events _ List.mem_cons_self
  have hlt : handle < heap.length := hl.lt_length List.mem_cons_self
  obtain ⟨hnewest, hsorted⟩ := List.pairwise_cons.1 hl.sorted
  refine ⟨heap.set handle (events ++ [event]), by simp [Heap.record, hget, hlast, hallows],
    List.pairwise_cons.2 ⟨hnewest, hsorted⟩, fun x hx => ?_, fun h es hes hnot => ?_⟩
  · rcases List.mem_cons.1 hx with rfl | hx
    · simp [hlt]
    · have hne : handle ≠ x.1 := Nat.ne_of_gt (hnewest x hx)
      rw [List.getElem?_set_ne hne]
      exact hl.events x (List.mem_cons_of_mem _ hx)
  · have hne : handle ≠ h := by
      rintro rfl
      simp at hnot
    rw [List.getElem?_set_ne hne] at hes
    exact hl.ended h es hes hnot

theorem Live.pop (hl : heap.Live ((handle, events) :: stack)) (hends : Ended events) :
    heap.Live stack where
  sorted := (List.pairwise_cons.1 hl.sorted).2
  events x hx := hl.events x (List.mem_cons_of_mem _ hx)
  ended h es hes hnot := by
    by_cases hh : h = handle
    · have hget : heap[handle]? = some events := hl.events _ List.mem_cons_self
      rw [hh, hget] at hes
      cases hes
      exact hends
    · exact hl.ended h es hes (by simp [hh, hnot])

theorem Live.ended_of_nil (hl : heap.Live []) : ∀ events ∈ heap, Ended events := by
  intro events hmem
  obtain ⟨h, hget⟩ := List.mem_iff_getElem?.1 hmem
  exact hl.ended h events hget (by simp)

/-- All frames run but the newest, which is somewhere in its life. -/
theorem Live.disciplined (hl : heap.Live stack) (hruns : ∀ x ∈ stack.tail, x.2 = [.create, .resume])
    (hlives : ∀ x ∈ stack, x.2 ≠ [] ∧ ∃ life, Ended life ∧ x.2 <+: life) : heap.Disciplined where
  lives events hmem := by
    obtain ⟨h, hget⟩ := List.mem_iff_getElem?.1 hmem
    by_cases hin : h ∈ stack.map Prod.fst
    · obtain ⟨x, hx, rfl⟩ := List.mem_map.1 hin
      rw [hl.events x hx] at hget
      cases hget
      exact hlives x hx
    · have hends := hl.ended h events hget hin
      refine ⟨?_, events, hends, List.prefix_rfl⟩
      rcases hends with rfl | rfl <;> simp
  nested h h' events events' hlt hget hget' hnot hnot' := by
    have hmem : ∀ k es, heap[k]? = some es → ¬ Ended es → (k, es) ∈ stack := by
      intro k es hk hes
      by_cases hin : k ∈ stack.map Prod.fst
      · obtain ⟨x, hx, rfl⟩ := List.mem_map.1 hin
        rw [hl.events x hx] at hk
        cases hk
        exact hx
      · exact absurd (hl.ended k es hk hin) hes
    have hx := hmem h events hget hnot
    have hx' := hmem h' events' hget' hnot'
    cases stack with
    | nil => cases hx
    | cons top below =>
      rcases List.mem_cons.1 hx with rfl | hx
      · -- the newest frame has none above it
        rcases List.mem_cons.1 hx' with heq | hx'
        · cases heq; omega
        · have := (List.pairwise_cons.1 hl.sorted).1 _ hx'
          simp only at this
          omega
      · exact hruns _ hx

end Heap

namespace Coroutines
variable {P : Coroutines ι} {r i j : ι} {m m' : P.Machine r} {g : Bool} {V : ValueType}

/-- The frames of the callers, all of which run. -/
def Callers.stack {i : ι} : P.Callers r i → List (Nat × List FrameEvent)
  | .outside => []
  | .awaits handle _ _ callers => (handle, [.create, .resume]) :: callers.stack

/-- No promise of a caller has a value yet. -/
def Callers.Pending {i : ι} : P.Callers r i → Prop
  | .outside => True
  | .awaits _ promise _ callers => promise.isGood = false ∧ callers.Pending

def Machine.Inv (m : P.Machine r) : Prop :=
  match m.control with
  | .call _ _ callers => callers.Pending ∧ m.heap.Live callers.stack
  | .created _ handle promise callers =>
    promise.isGood = false ∧ callers.Pending ∧ m.heap.Live ((handle, [.create]) :: callers.stack)
  | .running _ handle promise _ callers =>
    promise.isGood = false ∧ callers.Pending ∧ m.heap.Live ((handle, [.create, .resume]) :: callers.stack)
  | .suspended _ handle promise callers =>
    promise.toResult.isSome ∧ callers.Pending ∧ ∃ event, (event = suspend ∨ event = finish) ∧
      m.heap.Live ((handle, [.create, .resume, event]) :: callers.stack)
  | .returned _ _ callers => callers.Pending ∧ m.heap.Live callers.stack

/-- The outermost call has returned. -/
def Machine.Returned (m : P.Machine r) : Prop := ∃ result, m.control = .returned r result .outside

/-- The body that runs awaits a parser that does not return. -/
def Machine.Waits (m : P.Machine r) : Prop :=
  ∃ (i : ι) (handle : Nat) (promise : ParsePromise (P.Value i)) (frame : P.Frame i)
    (callers : P.Callers r i) (g : Bool) (V : ValueType) (p : Parser g V) (next : V → P.Frame i),
    m.control = .running i handle promise frame callers ∧ P.step i frame = .coAwait p next ∧
      p.parse promise.state = none

theorem Callers.stack_runs : {i : ι} → (callers : P.Callers r i) → ∀ x ∈ callers.stack,
    x.2 = [.create, .resume]
  | _, .outside, x, hx => by cases hx
  | _, .awaits _ _ _ callers, x, hx => by
    rcases List.mem_cons.1 hx with rfl | hx
    · rfl
    · exact callers.stack_runs x hx

theorem toResult_of_not_good {T : ValueType} {promise : ParsePromise T} (h : promise.isGood = false) :
    promise.toResult = some .failed := by
  simp [ParsePromise.toResult, h]

/-- Where the run stands after an await with this outcome. -/
def afterAwait (handle : Nat) (promise : ParsePromise (P.Value i)) (next : V → P.Frame i)
    (callers : P.Callers r i) : Option (State × V) → P.Control r
  | some (st, v) => .running i handle { promise with state := st } (next v) callers
  | none => .suspended i handle promise callers

/-! ### Steps -/

section
variable {handle : Nat} {heap : Heap} {callers : P.Callers r i} {promise : ParsePromise (P.Value i)}
variable {frame : P.Frame i} {st : State}

theorem step_call (h : Machine.Inv ⟨.call i st callers, heap⟩) :
    ∃ handle heap', Machine.step ⟨.call i st callers, heap⟩ =
        some ⟨.created i handle (ParsePromise.init _ st) callers, heap'⟩ ∧
      Machine.Inv ⟨.created i handle (ParsePromise.init _ st) callers, heap'⟩ := by
  obtain ⟨hcallers, hl⟩ := h
  exact ⟨heap.length, heap.create, rfl, rfl, hcallers, hl.create⟩

theorem step_created (h : Machine.Inv ⟨.created i handle promise callers, heap⟩) :
    ∃ heap', Machine.step ⟨.created i handle promise callers, heap⟩ =
        some ⟨.running i handle promise (P.start i) callers, heap'⟩ ∧
      Machine.Inv ⟨.running i handle promise (P.start i) callers, heap'⟩ := by
  obtain ⟨hpromise, hcallers, hl⟩ := h
  have hallows : FrameEvent.allows create resume = true := rfl
  obtain ⟨heap', hrecord, hl'⟩ := hl.record rfl hallows
  exact ⟨heap', by simp only [Machine.step, hrecord]; rfl, hpromise, hcallers, hl'⟩

theorem exists_suspended (hl : heap.Live ((handle, [.create, .resume]) :: callers.stack))
    (hcallers : callers.Pending) (hpromise : promise.toResult.isSome) {event : FrameEvent}
    (hevent : event = suspend ∨ event = finish) :
    ∃ heap', heap.record handle event = some heap' ∧
      Machine.Inv (P := P) ⟨.suspended i handle promise callers, heap'⟩ := by
  have hallows : FrameEvent.allows resume event = true := by rcases hevent with rfl | rfl <;> rfl
  obtain ⟨heap', hrecord, hl'⟩ := hl.record rfl hallows
  exact ⟨heap', hrecord, hpromise, hcallers, event, hevent, hl'⟩

theorem exists_awaited (hl : heap.Live ((handle, [.create, .resume]) :: callers.stack))
    (hcallers : callers.Pending) (hpromise : promise.isGood = false) (next : V → P.Frame i)
    (result : GetResult V g) :
    ∃ heap', awaited handle promise next callers result heap =
        some ⟨afterAwait handle promise next callers result.outcome, heap'⟩ ∧
      Machine.Inv ⟨afterAwait handle promise next callers result.outcome, heap'⟩ := by
  rcases ho : result.outcome with _ | ⟨st, v⟩
  · have hb : result.toBool = false := by rw [toBool_eq, ho]; rfl
    have hfailed : promise.toResult.isSome := by rw [toResult_of_not_good hpromise]; rfl
    obtain ⟨heap', hrecord, hinv⟩ := exists_suspended hl hcallers hfailed (.inl rfl)
    exact ⟨heap', by simp only [awaited, hb, hrecord]; rfl, hinv⟩
  · obtain ⟨hb, rfl, hv⟩ := outcome_eq_some ho
    exact ⟨heap, by simp only [awaited, hb, hv]; rfl, hpromise, hcallers, hl⟩

theorem step_await {p : Parser g V} {next : V → P.Frame i} {result : GetResult V g}
    (h : Machine.Inv ⟨.running i handle promise frame callers, heap⟩)
    (hstep : P.step i frame = .coAwait p next) (hp : p.parse promise.state = some result) :
    ∃ heap', Machine.step ⟨.running i handle promise frame callers, heap⟩ =
        some ⟨afterAwait handle promise next callers result.outcome, heap'⟩ ∧
      Machine.Inv ⟨afterAwait handle promise next callers result.outcome, heap'⟩ := by
  obtain ⟨hpromise, hcallers, hl⟩ := h
  obtain ⟨heap', hawaited, hinv⟩ := exists_awaited hl hcallers hpromise next result
  exact ⟨heap', by simp only [Machine.step, hstep, hp]; exact hawaited, hinv⟩

theorem step_awaitCall {next : P.Value j → P.Frame i}
    (h : Machine.Inv ⟨.running i handle promise frame callers, heap⟩)
    (hstep : P.step i frame = .coAwaitCall j next) :
    Machine.step ⟨.running i handle promise frame callers, heap⟩ =
        some ⟨.call j promise.state (.awaits handle promise next callers), heap⟩ ∧
      Machine.Inv ⟨.call j promise.state (.awaits handle promise next callers), heap⟩ := by
  obtain ⟨hpromise, hcallers, hl⟩ := h
  exact ⟨by simp only [Machine.step, hstep]; rfl, ⟨hpromise, hcallers⟩, hl⟩

theorem step_returned {next : P.Value j → P.Frame i} {result : Result (P.Value j)}
    (h : Machine.Inv ⟨.returned j result (.awaits handle promise next callers), heap⟩) :
    ∃ heap', Machine.step ⟨.returned j result (.awaits handle promise next callers), heap⟩ =
        some ⟨afterAwait handle promise next callers (GetResult.outcome (g := false) result), heap'⟩ ∧
      Machine.Inv ⟨afterAwait handle promise next callers (GetResult.outcome (g := false) result),
        heap'⟩ := by
  obtain ⟨⟨hpromise, hcallers⟩, hl⟩ := h
  exact exists_awaited (g := false) hl hcallers hpromise next result

theorem step_throw (h : Machine.Inv ⟨.running i handle promise frame callers, heap⟩)
    (hstep : P.step i frame = .throw) :
    ∃ heap', Machine.step ⟨.running i handle promise frame callers, heap⟩ =
        some ⟨.suspended i handle promise.unhandledException callers, heap'⟩ ∧
      Machine.Inv ⟨.suspended i handle promise.unhandledException callers, heap'⟩ := by
  obtain ⟨-, hcallers, hl⟩ := h
  have hfailed : promise.unhandledException.toResult.isSome := by rw [toResult_of_not_good rfl]; rfl
  obtain ⟨heap', hrecord, hinv⟩ := exists_suspended hl hcallers hfailed (.inr rfl)
  exact ⟨heap', by simp only [Machine.step, hstep, hrecord]; rfl, hinv⟩

theorem step_return {value : P.Value i}
    (h : Machine.Inv ⟨.running i handle promise frame callers, heap⟩)
    (hstep : P.step i frame = .coReturn value) :
    ∃ heap', Machine.step ⟨.running i handle promise frame callers, heap⟩ =
        some ⟨.suspended i handle (promise.returnValue value) callers, heap'⟩ ∧
      Machine.Inv ⟨.suspended i handle (promise.returnValue value) callers, heap'⟩ := by
  obtain ⟨-, hcallers, hl⟩ := h
  have hgood : (promise.returnValue value).toResult.isSome := rfl
  obtain ⟨heap', hrecord, hinv⟩ := exists_suspended hl hcallers hgood (.inr rfl)
  exact ⟨heap', by simp only [Machine.step, hstep, hrecord]; rfl, hinv⟩

theorem step_suspended {result : Result (P.Value i)}
    (h : Machine.Inv ⟨.suspended i handle promise callers, heap⟩)
    (hresult : promise.toResult = some result) :
    ∃ heap', Machine.step ⟨.suspended i handle promise callers, heap⟩ =
        some ⟨.returned i result callers, heap'⟩ ∧
      Machine.Inv ⟨.returned i result callers, heap'⟩ := by
  obtain ⟨-, hcallers, event, hevent, hl⟩ := h
  have hallows : event.allows destroy = true := by rcases hevent with rfl | rfl <;> rfl
  obtain ⟨heap', hrecord, hl'⟩ := hl.record rfl hallows
  have hends : Ended ([.create, .resume, event] ++ [destroy]) := by
    rcases hevent with rfl | rfl
    · exact .inl rfl
    · exact .inr rfl
  exact ⟨heap', by simp only [Machine.step, hresult, hrecord]; rfl, hcallers, hl'.pop hends⟩

end

/-- A run goes on and keeps the invariant, unless the outermost call has returned or an awaited parser
does not return. -/
theorem Machine.Inv.step (h : m.Inv) :
    (∃ m', m.step = some m' ∧ m'.Inv) ∨ m.step = none ∧ (m.Returned ∨ m.Waits) := by
  obtain ⟨control, heap⟩ := m
  cases control with
  | call i st callers =>
    obtain ⟨handle, heap', hm, hinv⟩ := step_call h
    exact .inl ⟨_, hm, hinv⟩
  | created i handle promise callers =>
    obtain ⟨heap', hm, hinv⟩ := step_created h
    exact .inl ⟨_, hm, hinv⟩
  | running i handle promise frame callers =>
    rcases hstep : P.step i frame with ⟨p, next⟩ | ⟨j, next⟩ | _ | value
    · rcases hp : p.parse promise.state with _ | result
      · -- the only place where a run gets stuck
        exact .inr ⟨by simp only [Machine.step, hstep, hp]; rfl,
          .inr ⟨i, handle, promise, frame, callers, _, _, p, next, rfl, hstep, hp⟩⟩
      · obtain ⟨heap', hm, hinv⟩ := step_await h hstep hp
        exact .inl ⟨_, hm, hinv⟩
    · exact .inl ⟨_, step_awaitCall h hstep⟩
    · obtain ⟨heap', hm, hinv⟩ := step_throw h hstep
      exact .inl ⟨_, hm, hinv⟩
    · obtain ⟨heap', hm, hinv⟩ := step_return h hstep
      exact .inl ⟨_, hm, hinv⟩
  | suspended i handle promise callers =>
    obtain ⟨result, hresult⟩ := Option.isSome_iff_exists.1 h.1
    obtain ⟨heap', hm, hinv⟩ := step_suspended h hresult
    exact .inl ⟨_, hm, hinv⟩
  | returned i result callers =>
    cases callers with
    | outside => exact .inr ⟨rfl, .inl ⟨result, rfl⟩⟩
    | awaits handle promise next callers =>
      obtain ⟨heap', hm, hinv⟩ := step_returned h
      exact .inl ⟨_, hm, hinv⟩

theorem Machine.Steps.inv (h : m.Steps m') (hinv : m.Inv) : m'.Inv := by
  induction h with
  | refl => exact hinv
  | tail _ hstep ih =>
    rcases ih.step with ⟨m₂, hm₂, hinv₂⟩ | ⟨hnone, -⟩
    · rw [hstep] at hm₂
      cases hm₂
      exact hinv₂
    · rw [hstep] at hnone
      cases hnone

theorem inv_initial (i : ι) (st : State) : (P.initial i st).Inv :=
  ⟨trivial, .nil, fun _ hx => (by cases hx), fun _ _ hget _ => (by cases hget)⟩

theorem Machine.Inv.disciplined (h : m.Inv) : m.heap.Disciplined := by
  have hruns : ([create, resume] : List FrameEvent) ≠ [] ∧ ∃ life, Ended life ∧
      [create, resume] <+: life := ⟨by simp, _, .inl rfl, _, rfl⟩
  -- a caller has been created and resumed; what else happens to it is still to come
  have hbelow : ∀ {i : ι} (callers : P.Callers r i), ∀ x ∈ callers.stack, x.2 ≠ [] ∧
      ∃ life, Ended life ∧ x.2 <+: life := by
    intro i callers x hx
    rw [callers.stack_runs x hx]
    exact hruns
  obtain ⟨control, heap⟩ := m
  cases control with
  | call i st callers =>
    exact h.2.disciplined (fun x hx => callers.stack_runs x (List.mem_of_mem_tail hx)) (hbelow callers)
  | created i handle promise callers =>
    exact h.2.2.disciplined callers.stack_runs
      (List.forall_mem_cons.2 ⟨⟨by simp, _, .inl rfl, _, rfl⟩, hbelow callers⟩)
  | running i handle promise frame callers =>
    exact h.2.2.disciplined callers.stack_runs (List.forall_mem_cons.2 ⟨hruns, hbelow callers⟩)
  | suspended i handle promise callers =>
    obtain ⟨-, -, event, hevent, hl⟩ := h
    refine hl.disciplined callers.stack_runs (List.forall_mem_cons.2 ⟨?_, hbelow callers⟩)
    rcases hevent with rfl | rfl
    · exact ⟨by simp, _, .inl rfl, _, rfl⟩
    · exact ⟨by simp, _, .inr rfl, _, rfl⟩
  | returned i result callers =>
    exact h.2.disciplined (fun x hx => callers.stack_runs x (List.mem_of_mem_tail hx)) (hbelow callers)

/-- In every run of coroutine parsers that await each other, each frame is created, resumed once,
suspended or finished, and destroyed, in this order, the newer ones within the run of the older ones. No
step resumes or destroys a frame that is not in order for it: a run only stops when the outermost call
has returned, with every frame destroyed, or in an awaited parser that does not return. -/
theorem frames_disciplined (P : Coroutines ι) (i : ι) (st : State) {m : P.Machine i}
    (h : (P.initial i st).Steps m) : m.heap.Disciplined ∧ (m.step = none ↔ m.Returned ∨ m.Waits) ∧
      (m.Returned → ∀ events ∈ m.heap, Ended events) := by
  have hinv : m.Inv := h.inv (inv_initial i st)
  refine ⟨hinv.disciplined, ⟨fun hnone => ?_, fun hstops => ?_⟩, fun hreturned => ?_⟩
  · rcases hinv.step with ⟨m', hm', -⟩ | ⟨-, hstops⟩
    · rw [hnone] at hm'; cases hm'
    · exact hstops
  · obtain ⟨control, heap⟩ := m
    rcases hstops with ⟨result, rfl⟩ | ⟨j, handle, promise, frame, callers, g, V, p, next, rfl, hstep, hp⟩
    · rfl
    · simp only [Machine.step, hstep, hp]; rfl
  · obtain ⟨control, heap⟩ := m
    obtain ⟨result, rfl⟩ := hreturned
    exact hinv.2.ended_of_nil

/-- At most `n` steps. -/
def Machine.run : Nat → P.Machine r → P.Machine r
  | 0, m => m
  | n + 1, m => match m.step with
    | some m' => m'.run n
    | none => m

theorem Machine.steps_run (n : Nat) (m : P.Machine r) : m.Steps (m.run n) := by
  induction n generalizing m with
  | zero => exact .refl
  | succ n ih =>
    unfold Machine.run
    split
    · rename_i m' hm'
      exact .head hm' (ih m')
    · exact .refl

/-- `true` awaits `false`, which awaits a boolean. -/
def awaitedBool (mem : Memory) : Coroutines Bool where
  Value _ := ValueType.bool
  Frame _ := Option Bool
  start _ := none
  step
    | _, some b => .coReturn b
    | true, none => .coAwaitCall false some
    | false, none => .coAwait (boolParser mem) some

/-- Two frames on an input without a boolean: both are destroyed after their failed awaits. -/
theorem frames_disciplined_bool :
    let m := ((awaitedBool (Memory.ofText [ch '1'])).initial true (State.ofLength 1)).run 10
    m.heap.length = 2 ∧ ∀ events ∈ m.heap, Ended events := by
  intro m
  have h := frames_disciplined (awaitedBool (Memory.ofText [ch '1'])) true (State.ofLength 1)
    (Machine.steps_run 10 _)
  exact ⟨rfl, h.2.2 ⟨_, rfl⟩⟩

end Coroutines

end Noam
