import Noam.Counted
import Noam.JsonAccepts
import Noam.JsonDepth

/-!
# How often `parse_value` calls itself

`parse_value` with a count of its calls, also of those whose result is thrown away when an array or an
object turns out to be none. A call that succeeds takes a character for each call in it, so no text is
parsed twice: on any input there are at most as many calls as characters, and one more.
-/

namespace Noam
open GetResult ValueType Loop Attempt Recognition

variable {N : Type} {V : ValueType} {mem : Memory} {st t : State} {α β X : Type} {n k : Nat}

/-! ### The parser with a count -/

/-- `Parser.ofAttempt`, for a parser that is not always good. -/
def settled (V : ValueType) (c : Counted State V) : Counted State V := fun st => do
  let (n, o) ← c st
  return (n, ← settle false o)

/-- Elements in brackets. -/
def countedBrackets (mem : Memory) (opening sep closing : AnyLiteral) (elem : Counted State α)
    (push : X → α → X) (x : X) : Counted State X :=
  .bind (.free (openParser mem opening).run) fun _ =>
    .bind (.sepBy (.free (separator mem [sep]).run) elem push x) fun y =>
      .map (fun _ => y) (.free (closeParser mem closing).run)

section
variable [Inhabited N] (mem : Memory) (fc : FromChars (double N))

/-- The alternatives of `parse_value` that do not call it. -/
def leafAlternatives : Alternatives (jsonValue N) [false, false, false, false] :=
  .cons (literalConstant mem (V := nullptr) () [nullLiteral]) (.convert fun _ => .null) <|
  .cons (boolParser mem) (.convert .boolean) <|
  .cons (charconv mem fc) (.convert .number) <|
  .cons (parseStringView mem) (.convert .string) .nil

def countedArray (value : Counted State (jsonValue N)) : Counted State (vector (jsonValue N)) :=
  settled _ (countedBrackets mem (.charLiteral (ch '[')) (.charLiteral (ch ',')) (.charLiteral (ch ']'))
    value pushBack [])

def countedEntry (value : Counted State (jsonValue N)) : Counted State (pair stringView (jsonValue N)) :=
  settled _ (.bind (.free (parseStringView mem).run) fun key => .map (fun v => (key, v))
    (.bind (.free (match_ (.cons (separator mem [.charLiteral (ch ':')]) .nil)).run) fun _ => value))

def countedObject (value : Counted State (jsonValue N)) :
    Counted State (mapType (JsonObject N) stringView (jsonValue N)) :=
  settled _ (countedBrackets mem (.charLiteral (ch '{')) (.charLiteral (ch ',')) (.charLiteral (ch '}'))
    (countedEntry mem value) emplaceEntry (EmplaceMap.empty stringView (jsonValue N)))

/-- A call with `value` for the calls in it. -/
def countedValueOf (value : Counted State (jsonValue N)) : Counted State (jsonValue N) :=
  settled _ (.orElse (.free (leafAlternatives mem fc).runFirst)
    (.orElse (.map JsonValue.array (countedArray mem value))
      (.map JsonValue.object (countedObject mem value))))

def countedWithin : Nat → Counted State (jsonValue N)
  | 0 => fun _ => none
  | depth + 1 => .tick (countedValueOf mem fc (countedWithin depth))

/-- `parse_value`, with the number of its calls. -/
def countedParseValue : Counted State (jsonValue N) := fun st =>
  search fun depth => countedWithin mem fc depth st

end

/-! ### Without the count -/

theorem erase_settled (c : Counted State V) :
    (settled V c).erase = (Parser.ofAttempt false c.erase).run := by
  funext st
  rw [run_ofAttempt]
  rcases h : c st with _ | ⟨n, _ | x⟩ <;> simp [settled, Counted.erase, h, settle]

theorem erase_brackets (opening sep closing : AnyLiteral) (elem : Counted State α) (push : X → α → X)
    (x : X) : (countedBrackets mem opening sep closing elem push x).erase =
      bind (openParser mem opening).run fun _ =>
        bind (Attempt.sepBy (separator mem [sep]).run elem.erase push x) fun y =>
          Attempt.map (fun _ => y) (closeParser mem closing).run := by
  simp only [countedBrackets, Counted.erase_bind, Counted.erase_sepBy, Counted.erase_map,
    Counted.erase_free]

section
variable {value : Counted State (jsonValue N)} {q : Parser false (jsonValue N)}

theorem erase_array (h : value.erase = q.run) : (countedArray mem value).erase =
    (sequenceCommas mem (.charLiteral (ch '[')) (.charLiteral (ch ']')) q).run := by
  rw [countedArray, erase_settled, erase_brackets, h, sequenceCommas, sequenceEnclosed_eq]

theorem erase_entry (h : value.erase = q.run) : (countedEntry mem value).erase =
    (makePair mem (.charLiteral (ch ':')) (parseStringView mem) q).run := by
  rw [countedEntry, erase_settled, run_makePair_eq, run_joined]
  simp only [Counted.erase_bind, Counted.erase_map, Counted.erase_free, h]

theorem erase_object (h : value.erase = q.run) : (countedObject mem value).erase =
    (parseMapBraces mem (JsonObject N) (parseStringView mem) q).run := by
  rw [countedObject, erase_settled, erase_brackets, erase_entry h, parseMapBraces, parseMap_eq]

variable [Inhabited N] {fc : FromChars (double N)}

theorem erase_valueOf (h : value.erase = q.run) :
    (countedValueOf mem fc value).erase = (valueOf mem fc q).run := by
  have hrun : (valueOf mem fc q).run = _ := run_either (valueAlternatives mem fc q)
  have hfirst : (valueAlternatives mem fc q).runFirst = orElse (leafAlternatives mem fc).runFirst
      (orElse (Attempt.map JsonValue.array (countedArray mem value).erase)
        (Attempt.map JsonValue.object (countedObject mem value).erase)) := by
    rw [erase_array h, erase_object h]
    simp only [valueAlternatives, leafAlternatives, Alternatives.runFirst, orElse_assoc, orElse_fail_right]
    rfl
  rw [hrun, hfirst, countedValueOf, erase_settled]
  simp only [Counted.erase_orElse, Counted.erase_map, Counted.erase_free]
  rfl

/-- The count makes no difference. -/
theorem erase_within (depth : Nat) :
    (countedWithin mem fc depth).erase = (recurseConstantWithin (valueOf mem fc) depth).run := by
  induction depth with
  | zero => rfl
  | succ depth ih =>
    rw [countedWithin, Counted.erase_tick, erase_valueOf ih, recurseConstantWithin_succ,
      toFallible_of_fallible]

end

/-! ### Ticks and characters -/

theorem State.Suffix.length_add (h : t.Suffix st) : t.length + t._begin = st.length + st._begin := by
  have hv : t._begin ≤ t._end := h.valid
  have hle := h.begin_le
  have hend := h.end_eq
  unfold State.length
  omega

/-- A success takes a character for each tick and `s` more, and a failure has at most `k` ticks more than
the input has characters. -/
structure Thrifty (s k : Nat) (c : Counted State α) : Prop where
  success : ∀ {st n st' a}, st.Live → c st = some (n, some (st', a)) →
    st'.Suffix st ∧ st._begin + n + s ≤ st'._begin
  failure : ∀ {st n}, st.Live → c st = some (n, none) → n ≤ st.length + k

section
variable {c elem : Counted State α} {sep : Attempt State β} {push : X → α → X} {s : Nat}

theorem settled_cases {c : Counted State V} {o : Option (State × V)} (h : settled V c st = some (n, o)) :
    ∃ o', c st = some (n, o') ∧ (o = o' ∨ o = none) := by
  obtain ⟨⟨m, o'⟩, hc, h⟩ := Option.bind_eq_some_iff.1 h
  obtain ⟨o'', ho, h⟩ := Option.bind_eq_some_iff.1 h
  cases h
  refine ⟨o', hc, ?_⟩
  rcases o' with _ | ⟨st', v⟩
  · exact .inl (Option.some.inj ho).symm
  · rw [settle, Option.some.injEq] at ho
    subst ho
    split
    · exact .inl rfl
    · exact .inr rfl

theorem Thrifty.settled {c : Counted State V} (h : Thrifty s k c) : Thrifty s k (settled V c) := by
  constructor
  · intro st n st' a hst hr
    obtain ⟨o', hc, rfl | hnone⟩ := settled_cases hr
    · exact h.success hst hc
    · cases hnone
  · intro st n hst hr
    obtain ⟨_ | ⟨st', v⟩, hc, -⟩ := settled_cases hr
    · exact h.failure hst hc
    · obtain ⟨hsuffix, hle⟩ := h.success hst hc
      have hlen := hsuffix.length_add
      omega

theorem Thrifty.free {p : Attempt State α} (hp : Takes s p) : Thrifty s 0 (.free p) := by
  constructor
  · intro st n st' a hst hr
    obtain ⟨rfl, hrun⟩ := Counted.free_eq hr
    exact hp st st' a hst.valid hrun
  · intro st n hst hr
    obtain ⟨rfl, -⟩ := Counted.free_eq hr
    exact Nat.zero_le _

/-- A choice of which at most one side ticks. -/
theorem Thrifty.orElse {d : Counted State α} (hc : Thrifty s k c) (hd : Thrifty s k d)
    (hone : ∀ {st n}, st.Live → c st = some (n, none) → n = 0 ∨ d st = some (0, none)) :
    Thrifty s k (.orElse c d) := by
  constructor
  · intro st n st' a hst hr
    rcases Counted.orElse_cases hr with ⟨x, hrun, heq⟩ | ⟨n₁, n₂, hfail, hrun, rfl⟩
    · cases heq
      exact hc.success hst hrun
    · rcases hone hst hfail with rfl | hnone
      · rw [Nat.zero_add]
        exact hd.success hst hrun
      · rw [hnone] at hrun
        cases hrun
  · intro st n hst hr
    rcases Counted.orElse_cases hr with ⟨x, -, heq⟩ | ⟨n₁, n₂, hfail, hrun, rfl⟩
    · cases heq
    · rcases hone hst hfail with rfl | hnone
      · rw [Nat.zero_add]
        exact hd.failure hst hrun
      · rw [hnone] at hrun
        cases hrun
        exact hc.failure hst hfail

theorem Thrifty.tick (h : Thrifty 1 0 c) : Thrifty 0 1 (.tick c) := by
  constructor
  · intro st n st' a hst hr
    obtain ⟨⟨m, o⟩, hc, heq⟩ := Option.map_eq_some_iff.1 hr
    cases heq
    obtain ⟨hsuffix, hle⟩ := h.success hst hc
    exact ⟨hsuffix, by omega⟩
  · intro st n hst hr
    obtain ⟨⟨m, o⟩, hc, heq⟩ := Option.map_eq_some_iff.1 hr
    cases heq
    exact Nat.succ_le_succ (h.failure hst hc)

theorem Thrifty.mono {s' k' : Nat} (h : Thrifty s k c) (hs : s' ≤ s) (hk : k ≤ k') : Thrifty s' k' c where
  success hst hr := ⟨(h.success hst hr).1, by have := (h.success hst hr).2; omega⟩
  failure hst hr := by have := h.failure hst hr; omega

theorem Thrifty.map (h : Thrifty s k c) (f : α → β) : Thrifty s k (.map f c) := by
  constructor
  · intro st n st' b hst hr
    obtain ⟨_ | ⟨t, a⟩, hc, heq⟩ := Counted.map_cases hr
    · cases heq
    · obtain ⟨rfl, -⟩ := Prod.mk.inj (Option.some.inj heq)
      exact h.success hst hc
  · intro st n hst hr
    obtain ⟨_ | x, hc, heq⟩ := Counted.map_cases hr
    · exact h.failure hst hc
    · cases heq

/-- What is taken first pays for later ticks. -/
theorem Thrifty.after {p : Attempt State β} {i : Nat} {d : β → Counted State α} (hp : Takes i p)
    (hd : ∀ b, Thrifty s (k + i) (d b)) : Thrifty (s + i) k (.bind (.free p) d) := by
  constructor
  · intro st n st' a hst hr
    rcases Counted.bind_cases hr with ⟨-, ho⟩ | ⟨n₁, t, b, n₂, hfree, hrest, rfl⟩
    · cases ho
    · obtain ⟨rfl, hrun⟩ := Counted.free_eq hfree
      obtain ⟨hsuffix, hle⟩ := hp st t b hst.valid hrun
      obtain ⟨hsuffix', hle'⟩ := (hd b).success (hsuffix.live hst) hrest
      exact ⟨hsuffix.trans hsuffix', by omega⟩
  · intro st n hst hr
    rcases Counted.bind_cases hr with ⟨hfree, -⟩ | ⟨n₁, t, b, n₂, hfree, hrest, rfl⟩
    · obtain ⟨rfl, -⟩ := Counted.free_eq hfree
      exact Nat.zero_le _
    · obtain ⟨rfl, hrun⟩ := Counted.free_eq hfree
      obtain ⟨hsuffix, hle⟩ := hp st t b hst.valid hrun
      have hn := (hd b).failure (hsuffix.live hst) hrest
      have hlen := hsuffix.length_add
      omega

/-- The rest of a list: its ticks are paid for, or it has given back a separator. -/
theorem Thrifty.rest (h : Thrifty 0 k elem) (hsep : Takes 0 sep) {x : X} {o : Option (State × X)}
    (hst : st.Live) (hr : Counted.iterate (fun x => .map (push x) (.bind (.free sep) fun _ => elem)) x st =
      some (n, o)) :
    ∃ t y, o = some (t, y) ∧ t.Suffix st ∧
      (st._begin + n ≤ t._begin ∨ n ≤ st.length + k ∧ ∃ z, sep t = some (some z)) := by
  have hrun := Counted.iterate_induct (motive := fun s _ n t _ => s.Live → t.Suffix s ∧
    (s._begin + n ≤ t._begin ∨ n ≤ s.length + k ∧ ∃ z, sep t = some (some z)))
    (fun s x n hround hs => ?_) (fun s x n s' x' m t y hround ih hs => ?_) hr
  · obtain ⟨t, y, rfl, hmotive⟩ := hrun
    exact ⟨t, y, rfl, hmotive hst⟩
  · -- the last round: there is no separator, or it is given back in front of a failing element
    refine ⟨.refl hs.valid, ?_⟩
    obtain ⟨o', hpair, ho⟩ := Counted.map_cases hround
    obtain rfl : o' = none := by simpa using ho.symm
    rcases Counted.bind_cases hpair with ⟨hfree, -⟩ | ⟨n₁, s₁, b, n₂, hfree, helem, rfl⟩
    · obtain ⟨rfl, -⟩ := Counted.free_eq hfree
      exact .inl (Nat.le_refl _)
    · obtain ⟨rfl, hsome⟩ := Counted.free_eq hfree
      obtain ⟨hsuffix, -⟩ := hsep s s₁ b hs.valid hsome
      have hfail := h.failure (hsuffix.live hs) helem
      have hlen := hsuffix.length_add
      have hle := hsuffix.begin_le
      exact .inr ⟨by omega, _, hsome⟩
  · obtain ⟨o', hpair, ho⟩ := Counted.map_cases hround
    obtain ⟨⟨s₂, a⟩, rfl, heq⟩ := Option.map_eq_some_iff.1 ho.symm
    cases heq
    rcases Counted.bind_cases hpair with ⟨-, hnone⟩ | ⟨n₁, s₁, b, n₂, hfree, helem, rfl⟩
    · cases hnone
    · obtain ⟨rfl, hsome⟩ := Counted.free_eq hfree
      obtain ⟨hsuffix₁, hle₁⟩ := hsep s s₁ b hs.valid hsome
      obtain ⟨hsuffix₂, hle₂⟩ := h.success (hsuffix₁.live hs) helem
      -- a round that goes on: the element has paid for its own ticks
      have hsuffix := hsuffix₁.trans hsuffix₂
      have hlen := hsuffix.length_add
      obtain ⟨ht, hn⟩ : t.Suffix s₂ ∧
          (s₂._begin + m ≤ t._begin ∨ m ≤ s₂.length + k ∧ ∃ z, sep t = some (some z)) :=
        ih (hsuffix.live hs)
      refine ⟨hsuffix.trans ht, ?_⟩
      rcases hn with hn | ⟨hn, hz⟩
      · exact .inl (by omega)
      · exact .inr ⟨by omega, hz⟩

/-- A list: its ticks are paid for, or its first element fails, or it has given back a separator. -/
theorem Thrifty.elements (h : Thrifty 0 k elem) (hsep : Takes 0 sep) {x : X} {o : Option (State × X)}
    (hst : st.Live) (hr : Counted.sepBy (.free sep) elem push x st = some (n, o)) :
    ∃ t y, o = some (t, y) ∧ t.Suffix st ∧ (st._begin + n ≤ t._begin ∨ t = st ∧ elem st = some (n, none) ∨
      n ≤ st.length + k ∧ ∃ z, sep t = some (some z)) := by
  rcases Counted.orElse_cases hr with ⟨y, hlist, rfl⟩ | ⟨n₁, n₂, hlist, hpure, rfl⟩
  · rcases Counted.bind_cases hlist with ⟨-, hnone⟩ | ⟨n₁, s₁, a, n₂, helem, hrest, rfl⟩
    · cases hnone
    · obtain ⟨hsuffix, hle⟩ := h.success hst helem
      obtain ⟨t, y, heq, ht, hn⟩ := h.rest hsep (hsuffix.live hst) hrest
      have hlen := hsuffix.length_add
      refine ⟨t, y, heq, hsuffix.trans ht, ?_⟩
      rcases hn with hn | ⟨hn, hz⟩
      · exact .inl (by omega)
      · exact .inr (.inr ⟨by omega, hz⟩)
  · obtain ⟨rfl, hpure⟩ := Counted.free_eq hpure
    cases hpure
    refine ⟨st, x, rfl, .refl hst.valid, .inr (.inl ⟨rfl, ?_⟩)⟩
    rcases Counted.bind_cases hlist with ⟨helem, -⟩ | ⟨m₁, s₁, a, m₂, helem, hrest, -⟩
    · exact helem
    · -- a repetition does not fail
      obtain ⟨t, y, heq, -⟩ := h.rest hsep ((h.success hst helem).1.live hst) hrest
      cases heq

/-- Elements in brackets, where no separator stands in front of a closing bracket and an element fails
there at once. -/
theorem Thrifty.brackets (h : Thrifty 0 1 elem) {opening lit closing : AnyLiteral}
    (hopening : 0 < opening.size) (hclosing : 0 < closing.size)
    (hquick : ∀ {t n z}, t.Live → elem t = some (n, none) →
      (closeParser mem closing).run t = some (some z) → n ≤ 1)
    (hends : ∀ {t w z}, t.Live → (separator mem [lit]).run t = some (some w) →
      (closeParser mem closing).run t ≠ some (some z)) (push : X → α → X) (x : X) :
    Thrifty 1 0 (countedBrackets mem opening lit closing elem push x) := by
  have hmain : ∀ {st n o}, st.Live → countedBrackets mem opening lit closing elem push x st = some (n, o) →
      (∀ st' y, o = some (st', y) → st'.Suffix st ∧ st._begin + n + 1 ≤ st'._begin) ∧
        (o = none → n ≤ st.length) := by
    intro st n o hst hr
    rcases Counted.bind_cases hr with ⟨hfree₁, rfl⟩ | ⟨n₁, t₁, u, n₂, hfree₁, hbehind, rfl⟩
    · obtain ⟨rfl, -⟩ := Counted.free_eq hfree₁
      exact ⟨fun _ _ h => (by cases h), fun _ => Nat.zero_le _⟩
    obtain ⟨rfl, hopen⟩ := Counted.free_eq hfree₁
    obtain ⟨hsuffix₁, hle₁⟩ := takes_openParser mem opening st t₁ u hst.valid hopen
    have hlive₁ := hsuffix₁.live hst
    have hlen₁ := hsuffix₁.length_add
    have hsep := (takes_separator mem lit).mono (Nat.zero_le _)
    rcases Counted.bind_cases hbehind with ⟨helems, -⟩ | ⟨n₃, t₂, y, n₄, helems, hclose, rfl⟩
    · obtain ⟨t, y, heq, -⟩ := h.elements hsep hlive₁ helems
      cases heq
    obtain ⟨t, y', heq, hsuffix₂, hn⟩ := h.elements hsep hlive₁ helems
    cases heq
    obtain ⟨o', hfree₂, rfl⟩ := Counted.map_cases hclose
    obtain ⟨rfl, hcloses⟩ := Counted.free_eq hfree₂
    have hlive₂ := hsuffix₂.live hlive₁
    have hlen₂ := hsuffix₂.length_add
    rcases o' with _ | ⟨t₃, w⟩
    · refine ⟨fun _ _ h => (by cases h), fun _ => ?_⟩
      -- no closing bracket: all that is wanted is a bound by the length of the input
      rcases hn with hn | ⟨-, hfail⟩ | ⟨hn, -⟩
      · omega
      · have hn := h.failure hlive₁ hfail
        omega
      · omega
    · refine ⟨fun st' y' heq => ?_, fun h => (by cases h)⟩
      cases heq
      obtain ⟨hsuffix₃, hle₃⟩ := takes_closeParser mem closing t₂ t₃ w hlive₂.valid hcloses
      have hle₂ := hsuffix₂.begin_le
      refine ⟨hsuffix₁.trans (hsuffix₂.trans hsuffix₃), ?_⟩
      show st._begin + (0 + (n₃ + 0)) + 1 ≤ t₃._begin
      -- a closing bracket: no separator was given back in front of it, and the brackets pay for the
      -- one tick of an element that failed there
      rcases hn with hn | ⟨rfl, hfail⟩ | ⟨-, z, hz⟩
      · omega
      · have hn := hquick hlive₂ hfail hcloses
        omega
      · exact absurd hcloses (hends hlive₂ hz)
  constructor
  · intro st n st' a hst hr
    exact (hmain hst hr).1 st' a rfl
  · intro st n hst hr
    exact (hmain hst hr).2 rfl

end

/-! ### Calls that open nothing -/

theorem State.Live.shows (h : st.Live) : st.Shows mem (st.text mem) := ⟨h.valid, h.good, rfl⟩

section
variable {c d : UInt8} {u : List UInt8} {z : State × empty}

/-- In front of a closing bracket there is whitespace or the bracket. -/
theorem head_of_closes (hst : st.Live) (h : (closeParser mem (.charLiteral c)).run st = some (some z))
    (hc : c ∉ whitespaceChars) (htext : st.text mem = d :: u) : d = c ∨ d ∈ whitespaceChars := by
  have hne : (AnyLiteral.charLiteral c).text ≠ [] := by simp [AnyLiteral.text]
  have hstart : startsBlank (AnyLiteral.charLiteral c).text = false := by
    simpa [startsBlank, AnyLiteral.text] using hc
  obtain ⟨w, t', -, -, a, ha⟩ := (recognizes_closeParser mem hne hstart).sound trivial hst.shows h
  rw [htext] at ha
  rcases hblank : a.1 with _ | ⟨b, bs⟩ <;> rw [hblank] at ha
  · exact .inl (List.cons.inj ha).1
  · refine .inr ?_
    rw [(List.cons.inj ha).1]
    exact a.2 b (by rw [hblank]; simp)

theorem opens_of_closes (hst : st.Live) (h : (closeParser mem (.charLiteral c)).run st = some (some z))
    (hc : c = ch ']' ∨ c = ch '}') (htext : st.text mem = d :: u) : opens d = false ∧ d ≠ ch '"' := by
  have hblank : c ∉ whitespaceChars := by rcases hc with rfl | rfl <;> decide
  rcases head_of_closes hst h hblank htext with rfl | hd
  · rcases hc with rfl | rfl <;> decide
  · revert hd
    simp only [whitespaceChars, List.mem_cons, List.not_mem_nil, or_false]
    rintro (rfl | rfl | rfl | rfl) <;> decide

end

theorem brackets_fail {opening sep closing : AnyLiteral} {elem : Counted State α} {push : X → α → X} {x : X}
    (h : (openParser mem opening).run st = some none) :
    countedBrackets mem opening sep closing elem push x st = some (0, none) := by
  simp [countedBrackets, Counted.bind, Counted.free, h]

section
variable {value : Counted State (jsonValue N)}

theorem countedArray_fails (hv : st.Valid) (h : ∀ c u, st.text mem = c :: u → c ≠ ch '[') :
    countedArray mem value st = some (0, none) := by
  have hopen : (openParser mem (.charLiteral (ch '['))).run st = some none :=
    run_openParser_fail hv (isPrefixOf_charLiteral h)
  simp [countedArray, settled, brackets_fail hopen, settle]

theorem countedObject_fails (hv : st.Valid) (h : ∀ c u, st.text mem = c :: u → c ≠ ch '{') :
    countedObject mem value st = some (0, none) := by
  have hopen : (openParser mem (.charLiteral (ch '{'))).run st = some none :=
    run_openParser_fail hv (isPrefixOf_charLiteral h)
  simp [countedObject, settled, brackets_fail hopen, settle]

/-- An entry ticks for its value only, so not at all where there is no key. -/
theorem quick_entry (hst : st.Live) (hhead : ∀ c u, st.text mem = c :: u → c ≠ ch '"')
    {o : Option (State × List UInt8 × JsonValue N)} (hr : countedEntry mem value st = some (n, o)) :
    n = 0 := by
  have hkey : (parseStringView mem).run st = some none := by
    refine (recognizes_string mem).fails trivial hst.shows fun raw t' htoken => ?_
    exact hhead _ _ htoken.text_eq rfl
  have hfail : countedEntry mem value st = some (0, none) := by
    simp [countedEntry, settled, Counted.bind, Counted.free, hkey, settle]
  rw [hfail] at hr
  cases hr; rfl

end

/-! ### The count of `parse_value` -/

/-- What is kept of a counted `parse_value`: in front of what opens nothing it ticks once. -/
structure ThriftyValue (mem : Memory) (value : Counted State (jsonValue N)) : Prop where
  thrifty : Thrifty 0 1 value
  quick : ∀ {st n o}, st.Live → (∀ c u, st.text mem = c :: u → opens c = false) →
    value st = some (n, o) → n ≤ 1

section
variable {value : Counted State (jsonValue N)} (h : ThriftyValue mem value)
include h

theorem thrifty_array : Thrifty 1 0 (countedArray mem value) := by
  refine (h.thrifty.brackets (size_charLiteral_pos _) (size_charLiteral_pos _) (fun hst hfail hclose => ?_)
    (fun hst hsep hclose => ?_) pushBack []).settled
  · exact h.quick hst (fun d u htext => (opens_of_closes hst hclose (.inl rfl) htext).1) hfail
  · obtain ⟨w, t', -, -, hsep, -⟩ :=
      (recognizes_separator mem (by decide) (by decide)).sound trivial hst.shows hsep
    obtain ⟨w, t', -, -, hclose⟩ :=
      (recognizes_closeParser mem (by decide) (by decide)).sound trivial hst.shows hclose
    exact punctuation_array.not_closes_of_separates hsep hclose

/-- The value of an entry stands behind a key and a colon. -/
theorem thrifty_entry : Thrifty 1 0 (countedEntry mem value) := by
  have hcolon : Takes 1 (match_ (.cons (separator mem [.charLiteral (ch ':')]) .nil)).run :=
    takes_match (takes_cons (takes_separator mem _) takes_nil)
  exact (Thrifty.after (takes_parseStringView mem) fun key =>
    (Thrifty.after hcolon fun _ => h.thrifty).map fun v => (key, v)).settled

theorem thrifty_object : Thrifty 1 0 (countedObject mem value) := by
  refine (((thrifty_entry h).mono (Nat.zero_le _) (Nat.zero_le _)).brackets (size_charLiteral_pos _)
    (size_charLiteral_pos _) (fun hst hfail hclose => ?_) (fun hst hsep hclose => ?_) emplaceEntry
    (EmplaceMap.empty stringView (jsonValue N))).settled
  · have hn := quick_entry hst
      (fun d u htext => (opens_of_closes hst hclose (.inr rfl) htext).2) hfail
    omega
  · obtain ⟨w, t', -, -, hsep, -⟩ :=
      (recognizes_separator mem (by decide) (by decide)).sound trivial hst.shows hsep
    obtain ⟨w, t', -, -, hclose⟩ :=
      (recognizes_closeParser mem (by decide) (by decide)).sound trivial hst.shows hclose
    exact punctuation_object.not_closes_of_separates hsep hclose

end

section
variable [Inhabited N] {fc : FromChars (double N)} {value : Counted State (jsonValue N)}

theorem takes_leafAlternatives : Takes 1 (leafAlternatives mem fc).runFirst := by
  have hnull : Takes 1 (literalConstant mem (V := nullptr) () [nullLiteral]).run :=
    ((Intrinsic.literalConstant (V := nullptr) () [nullLiteral]).takes_run mem).mono (by decide)
  have hbool : Takes 1 (boolParser mem).run := (Intrinsic.parseBool.takes_run mem).mono (by decide)
  have hnumber : Takes 1 (charconv mem fc).run := (Intrinsic.charconv fc).takes_run mem
  have hstring : Takes 1 (parseStringView mem).run :=
    ((Intrinsic.viewParser (.charLiteral (ch '"')) (.charLiteral (ch '"'))
      (.charLiteral (ch '\\'))).takes_run mem).mono (by decide)
  refine takes_alternative _ hnull (takes_alternative _ hbool (takes_alternative _ hnumber ?_))
  exact takes_alternative _ hstring fun _ _ _ _ hr => by cases hr

/-- A text does not start both an array and an object. -/
theorem thrifty_valueOf (h : ThriftyValue mem value) : Thrifty 1 0 (countedValueOf mem fc value) := by
  have hleaf : Thrifty 1 0 (.free (leafAlternatives mem fc).runFirst) := .free takes_leafAlternatives
  have harray := (thrifty_array h).map JsonValue.array
  have hobject := (thrifty_object h).map JsonValue.object
  refine (hleaf.orElse (harray.orElse hobject fun {st n} hst hfail => ?_) fun _ hfail =>
    .inl (Counted.free_eq hfail).1).settled
  by_cases hhead : ∀ c u, st.text mem = c :: u → c ≠ ch '{'
  · exact .inr (Counted.map_fail (countedObject_fails hst.valid hhead))
  · push Not at hhead
    obtain ⟨c, u, htext, rfl⟩ := hhead
    have hnone : countedArray mem value st = some (0, none) := by
      refine countedArray_fails hst.valid fun c u hcu => ?_
      rw [htext] at hcu
      cases hcu
      decide
    rw [Counted.map_fail hnone] at hfail
    cases hfail
    exact .inl rfl

theorem quick_valueOf (hst : st.Live) (hhead : ∀ c u, st.text mem = c :: u → opens c = false)
    {o : Option (State × JsonValue N)} (hr : countedValueOf mem fc value st = some (n, o)) : n = 0 := by
  have hnot : ∀ c u, st.text mem = c :: u → c ≠ ch '[' ∧ c ≠ ch '{' := fun c u htext => by
    simpa [opens] using hhead c u htext
  have harray : countedArray mem value st = some (0, none) :=
    countedArray_fails hst.valid fun c u htext => (hnot c u htext).1
  have hobject : countedObject mem value st = some (0, none) :=
    countedObject_fails hst.valid fun c u htext => (hnot c u htext).2
  obtain ⟨o', hr, -⟩ := settled_cases hr
  rcases Counted.orElse_cases hr with ⟨x, hleaf, -⟩ | ⟨n₁, n₂, hleaf, hrest, rfl⟩
  · exact (Counted.free_eq hleaf).1
  · obtain ⟨rfl, -⟩ := Counted.free_eq hleaf
    rcases Counted.orElse_cases hrest with ⟨x, hsome, -⟩ | ⟨n₁, n₃, hfail, hlast, rfl⟩
    · rw [Counted.map_fail harray] at hsome
      cases hsome
    · rw [Counted.map_fail harray] at hfail
      rw [Counted.map_fail hobject] at hlast
      cases hfail
      cases hlast
      rfl

theorem thriftyValue_within (depth : Nat) : ThriftyValue mem (countedWithin mem fc depth) := by
  induction depth with
  | zero =>
    have hnone : ∀ {st x}, countedWithin mem fc 0 st ≠ some x := fun h => by cases h
    exact ⟨⟨fun _ h => absurd h hnone, fun _ h => absurd h hnone⟩, fun _ _ h => absurd h hnone⟩
  | succ depth ih =>
    refine ⟨(thrifty_valueOf ih).tick, fun hst hhead hr => ?_⟩
    obtain ⟨⟨n, o⟩, hvalue, heq⟩ := Option.map_eq_some_iff.1 hr
    cases heq
    exact Nat.succ_le_succ (Nat.le_of_eq (quick_valueOf hst hhead hvalue))

end

/-- `parse_value` is called at most once for each character of its input and once more, calls whose result
is thrown away among them; where it succeeds, at most once for each character it takes. -/
theorem parseValue_calls [Inhabited N] (mem : Memory) (fc : FromChars (double N)) (hst : st.Live) :
    ∃ n o, countedParseValue mem fc st = some (n, o) ∧ (parseValue mem fc).run st = some o ∧
      n ≤ st.length + 1 ∧ ∀ st' v, o = some (st', v) → st._begin + n ≤ st'._begin := by
  have hwithin : ∀ depth, (countedWithin mem fc depth st).map Prod.snd =
      (recurseConstantWithin (valueOf mem fc) depth).run st := fun depth =>
    congrFun (erase_within depth) st
  -- enough nested calls are one more than there are opening brackets
  have hsome : (countedParseValue mem fc st).isSome := by
    refine isSome_search (n := openings (st.text mem) + 1) ?_
    rw [← Option.isSome_map, hwithin]
    exact isSome_within_openings mem fc hst.valid (Nat.lt_succ_self _)
  obtain ⟨⟨n, o⟩, hr⟩ := Option.isSome_iff_exists.1 hsome
  obtain ⟨depth, hdepth, -⟩ := search_eq_some_iff.1 hr
  have hrun : (recurseConstantWithin (valueOf mem fc) depth).run st = some o := by
    rw [← hwithin, hdepth]; rfl
  have hthrifty : Thrifty 0 1 (countedWithin mem fc depth) := (thriftyValue_within depth).thrifty
  refine ⟨n, o, hr, ?_, ?_, fun st' v heq => ?_⟩
  · have hcont : ContinuousIn (valueOf mem fc) := (Expr.either (valueChoices fc)).continuousIn mem Env.nil
    obtain ⟨r, hparse, rfl⟩ := Option.map_eq_some_iff.1 hrun
    show ((recurseConstant (valueOf mem fc)).parse st).map _ = _
    rw [(hcont.limit_within st).bound depth r hparse]
    rfl
  · rcases o with _ | ⟨st', v⟩
    · exact hthrifty.failure hst hdepth
    · obtain ⟨hsuffix, hle⟩ := hthrifty.success hst hdepth
      have hlen := hsuffix.length_add
      omega
  · subst heq
    exact (hthrifty.success hst hdepth).2

/-- In front of the unfinished array `[1,` there are at most four calls, and in front of `[1,[2]]` at most
seven. -/
theorem parseValue_calls_array :
    let mem := Memory.ofText [ch '[', ch '1', ch ',']
    let mem' := Memory.ofText [ch '[', ch '1', ch ',', ch '[', ch '2', ch ']', ch ']']
    (∃ n o, countedParseValue mem digitsFromChars (State.ofLength 3) = some (n, o) ∧
      (parseValue mem digitsFromChars).run (State.ofLength 3) = some o ∧ n ≤ 4) ∧
    ∃ n, countedParseValue mem' digitsFromChars (State.ofLength 7) =
      some (n, some (⟨8, 8⟩, .array [.number 1, .array [.number 2]])) ∧ n ≤ 7 := by
  intro mem mem'
  constructor
  · obtain ⟨n, o, hr, hrun, hn, -⟩ :=
      parseValue_calls mem digitsFromChars (State.live_ofLength 3)
    exact ⟨n, o, hr, hrun, hn⟩
  · have hone : readNumber digitsFromChars [ch '1', ch ',', ch '[', ch '2', ch ']', ch ']'] 1
        [ch ',', ch '[', ch '2', ch ']', ch ']'] := readNumber_digit (by decide) (by decide) _
    have htwo : readNumber digitsFromChars [ch '2', ch ']', ch ']'] 2 [ch ']', ch ']'] :=
      readNumber_digit (by decide) (by decide) _
    have hsep : Separates (.charLiteral (ch ',')) [ch ',', ch '[', ch '2', ch ']', ch ']'] ()
        [ch '[', ch '2', ch ']', ch ']'] := ⟨Blank.none, Blank.none, rfl⟩
    have hinner : Derives (readNumber digitsFromChars) [ch '[', ch '2', ch ']', ch ']'] (.array [.number 2])
        [ch ']'] := .array ⟨Blank.none, rfl⟩ (.cons (.number htwo) (.nil _)) ⟨Blank.none, rfl⟩
    have hvalue : Derives (readNumber digitsFromChars)
        [ch '[', ch '1', ch ',', ch '[', ch '2', ch ']', ch ']'] (.array [.number 1, .array [.number 2]]) [] :=
      .array ⟨Blank.none, rfl⟩ (.cons (.number hone) (.cons hsep hinner (.nil _))) ⟨Blank.none, rfl⟩
    have hrun := parseValue_of_derives numberTokens_digits.numberGrammar (State.shows_ofText _) hvalue
    obtain ⟨n, o, hr, hrun', -, hle⟩ :=
      parseValue_calls mem' digitsFromChars (State.live_ofLength 7)
    obtain rfl := Option.some.inj (hrun.symm.trans hrun')
    have hn : 1 + n ≤ 8 := hle _ _ rfl
    exact ⟨n, hr, by omega⟩

end Noam
