import Noam.Integers
import Noam.Progress
import Noam.Repetition

/-!
# Bracketed sequences parse back what is rendered

A list is rendered between its brackets with any whitespace after the opening one, around the separators
and before the closing one. The separator parser also takes the whitespace before the closing bracket,
and gives it back when no separator follows.
-/

namespace Noam
open GetResult ValueType Attempt Loop

variable {V : ValueType} {g : Bool} {mem : Memory} {st : State} {t : List UInt8}

/-! ### Parsers on a text that starts with what they take -/

/-- A valid state that is not null and has the text `t`. -/
structure State.Shows (st : State) (mem : Memory) (t : List UInt8) : Prop where
  valid : st.Valid
  good : st.good = true
  text : st.text mem = t

theorem State.Shows.drop {w : List UInt8} (h : st.Shows mem (w ++ t)) :
    (st.removePrefix w.length).Shows mem t := by
  have hle : w.length ≤ (st.text mem).length := by rw [h.text, List.length_append]; omega
  refine ⟨(State.suffix_removePrefix hle h.valid).valid,
    State.good_removePrefix h.good _, ?_⟩
  rw [State.text_removePrefix, h.text, List.drop_left]

theorem Memory.read_ofText (u t w : List UInt8) :
    (Memory.ofText (u ++ (t ++ w))).read (1 + u.length) t.length = t := by
  induction t generalizing u with
  | nil => rfl
  | cons c t ih =>
    have h := ih (u ++ [c])
    rw [List.append_assoc, List.singleton_append, List.length_append, List.length_singleton] at h
    rw [List.length_cons, Memory.read, Nat.add_assoc, List.cons_append, h, Memory.ofText]
    simp

/-- A text is shown by the state of its part in the middle of another one. -/
theorem State.shows_ofText_append (u t w : List UInt8) :
    State.Shows ⟨1 + u.length, 1 + u.length + t.length⟩ (Memory.ofText (u ++ (t ++ w))) t := by
  have hgood : State.good ⟨1 + u.length, 1 + u.length + t.length⟩ = true :=
    State.good_iff.2 (Nat.add_pos_left Nat.one_pos _)
  refine ⟨Nat.le_add_right _ _, hgood, ?_⟩
  rw [State.text, Nat.add_sub_cancel_left, Memory.read_ofText]

/-- Every text is shown by some state. -/
theorem State.shows_ofText (t : List UInt8) : (State.ofLength t.length).Shows (Memory.ofText t) t := by
  have h := State.shows_ofText_append [] t []
  rwa [List.append_nil] at h

theorem Parser.Reads.run_some {p : Parser g V} {F : OnText V} (h : p.Reads mem F) {n : Nat} {v : V}
    (hst : st.Shows mem t) (hF : F t = some (some (n, v))) :
    p.run st = some (some (st.removePrefix n, v)) :=
  h.run_of_good hst.valid hst.good (by rw [hst.text, hF])

theorem Parser.Reads.run_fail {p : Parser false V} {F : OnText V} (h : p.Reads mem F)
    (hst : st.Shows mem t) (hF : F t = some none) : p.run st = some none := by
  rw [h.run_eq hst.valid, hst.text, hF]; rfl

/-- The text starts with whitespace. -/
def startsBlank : List UInt8 → Bool
  | [] => false
  | c :: _ => c ∈ whitespaceChars

/-- A string of whitespace. -/
def Blank := {w : List UInt8 // ∀ c ∈ w, c ∈ whitespaceChars}

/-- No whitespace. -/
def Blank.none : Blank := ⟨[], fun _ h => by cases h⟩

/-- One whitespace character. -/
def Blank.single (c : UInt8) (hc : c ∈ whitespaceChars) : Blank :=
  ⟨[c], fun d hd => by rwa [List.mem_singleton.1 hd]⟩

def Blank.append (a b : Blank) : Blank :=
  ⟨a.1 ++ b.1, fun c h => (List.mem_append.1 h).elim (a.2 c) (b.2 c)⟩

theorem startsBlank_append {a : List UInt8} (h : a ≠ []) (t : List UInt8) :
    startsBlank (a ++ t) = startsBlank a := by
  cases a with
  | nil => exact absurd rfl h
  | cons c a => rfl

theorem Blank.startsBlank {w : Blank} (h : w.1 ≠ []) (t : List UInt8) :
    startsBlank (w.1 ++ t) = true := by
  rw [startsBlank_append h]
  obtain ⟨_ | ⟨c, w⟩, hw⟩ := w
  · exact absurd rfl h
  · have hc := hw c List.mem_cons_self
    simpa [Noam.startsBlank] using hc

theorem runLength_blank (w : Blank) (ht : startsBlank t = false) :
    runLength whitespaceChars (w.1 ++ t) = w.1.length := by
  have htail : t.takeWhile (· ∈ whitespaceChars) = [] := by
    cases t with
    | nil => rfl
    | cons c t =>
      simp only [startsBlank] at ht
      rw [List.takeWhile_cons, ht]; rfl
  unfold runLength
  rw [List.takeWhile_append_of_pos (by simpa using w.2), htail, List.append_nil]

theorem whitespace_shows (w : Blank) (h : st.Shows mem (w.1 ++ t)) (ht : startsBlank t = false) :
    (whitespace mem).run st = some (some (st.removePrefix w.1.length, ())) := by
  refine (zeroOrMoreChars_reads whitespaceChars).run_some h ?_
  unfold matchChsText
  rw [runLength_blank w ht]

theorem literal_shows {lit : AnyLiteral} (h : st.Shows mem (lit.text ++ t)) :
    (literal mem [lit]).run st = some (some (st.removePrefix lit.text.length, ())) := by
  refine (literal_reads [lit]).run_some h ?_
  have hp : lit.text.isPrefixOf (lit.text ++ t) = true :=
    List.isPrefixOf_iff_prefix.2 (List.prefix_append _ _)
  rw [literalText, AnyLiteral.firstPrefix, List.find?_cons, hp, AnyLiteral.length_text]; rfl

theorem literal_fails {lit : AnyLiteral} (h : st.Shows mem t) (hp : ¬ lit.text <+: t) :
    (literal mem [lit]).run st = some none := by
  refine (literal_reads [lit]).run_fail h ?_
  have hp' : lit.text.isPrefixOf t = false := by
    rw [← Bool.not_eq_true, List.isPrefixOf_iff_prefix]; exact hp
  rw [literalText, AnyLiteral.firstPrefix, List.find?_cons, hp']; rfl

theorem separator_shows {sep : AnyLiteral} (a b : Blank) (hs : sep.text ≠ [])
    (hb : startsBlank sep.text = false) (h : st.Shows mem (a.1 ++ (sep.text ++ (b.1 ++ t))))
    (ht : startsBlank t = false) : (separator mem [sep]).run st =
      some (some (st.removePrefix (a.1 ++ (sep.text ++ b.1)).length, ())) := by
  have hsep : startsBlank (sep.text ++ (b.1 ++ t)) = false := by rw [startsBlank_append hs, hb]
  rw [(separator_refines mem [sep]).run_eq h.good, bind_some (whitespace_shows a h hsep),
    bind_some (literal_shows h.drop), whitespace_shows b h.drop.drop ht,
    State.removePrefix_removePrefix, State.removePrefix_removePrefix]
  simp

theorem separator_fails {sep : AnyLiteral} (a : Blank) (h : st.Shows mem (a.1 ++ t))
    (ht : startsBlank t = false) (hp : ¬ sep.text <+: t) :
    (separator mem [sep]).run st = some none := by
  rw [(separator_refines mem [sep]).run_eq h.good, bind_some (whitespace_shows a h ht),
    bind_fail (literal_fails h.drop hp)]

theorem openParser_shows {opening : AnyLiteral} (a : Blank)
    (h : st.Shows mem (opening.text ++ (a.1 ++ t))) (ht : startsBlank t = false) :
    (openParser mem opening).run st =
      some (some (st.removePrefix (opening.text ++ a.1).length, ())) := by
  rw [(openParser_refines mem opening).run_eq h.good, bind_some (literal_shows h),
    whitespace_shows a h.drop ht, State.removePrefix_removePrefix, List.length_append]

theorem closeParser_shows {closing : AnyLiteral} (a : Blank) (hc : closing.text ≠ [])
    (hb : startsBlank closing.text = false) (h : st.Shows mem (a.1 ++ (closing.text ++ t))) :
    (closeParser mem closing).run st =
      some (some (st.removePrefix (a.1 ++ closing.text).length, ())) := by
  have hclose : startsBlank (closing.text ++ t) = false := by rw [startsBlank_append hc, hb]
  rw [(closeParser_refines mem closing).run_eq h.good, bind_some (whitespace_shows a h hclose),
    literal_shows h.drop, State.removePrefix_removePrefix, List.length_append]

/-! ### Rendered lists -/

section
variable (r : V → List UInt8) (opening sep closing : AnyLiteral) (before after : Nat → Blank)

/-- The elements after the first, with the whitespace before and after the separators from the `i`-th
on. -/
def renderRest : Nat → List V → List UInt8
  | _, [] => []
  | i, v :: vs => (before i).1 ++ (sep.text ++ (after i).1) ++ (r v ++ renderRest (i + 1) vs)

def renderElems : List V → List UInt8
  | [] => []
  | v :: vs => r v ++ renderRest r sep before after 0 vs

def render (first last : Blank) (vs : List V) : List UInt8 :=
  opening.text ++ first.1 ++ (renderElems r sep before after vs ++ (last.1 ++ closing.text))

end

/-- What may follow an element. -/
def Follows (sep closing : AnyLiteral) (t : List UInt8) : Prop :=
  startsBlank t = true ∨ sep.text <+: t ∨ closing.text <+: t

/-- `elem` parses back what `r` renders, in front of what may follow an element, and fails on whitespace
and on the closing literal; the literals are not empty, do not start with whitespace and neither is a
prefix of the other. -/
structure Rendering (elem : Memory → Parser g V) (r : V → List UInt8) (sep closing : AnyLiteral) :
    Prop where
  sep_ne : sep.text ≠ []
  sep_start : startsBlank sep.text = false
  closing_ne : closing.text ≠ []
  closing_start : startsBlank closing.text = false
  sep_not_prefix : ¬ sep.text <+: closing.text
  closing_not_prefix : ¬ closing.text <+: sep.text
  render_start : ∀ v, startsBlank (r v) = false
  parses : ∀ mem st v t, st.Shows mem (r v ++ t) → Follows sep closing t →
    (elem mem).run st = some (some (st.removePrefix (r v).length, v))
  fails : ∀ mem st t, st.Shows mem t → startsBlank t = true ∨ closing.text <+: t →
    (elem mem).run st = some none

namespace Rendering
variable {elem : Memory → Parser g V} {r : V → List UInt8} {opening sep closing : AnyLiteral}
variable (h : Rendering elem r sep closing) {before after : Nat → Blank}
include h

/-- No element is rendered as nothing, or it would be parsed where `elem` fails. -/
theorem render_ne (v : V) : r v ≠ [] := by
  intro hnil
  have hst : (State.ofLength 1).Shows (Memory.ofText [ch ' ']) [ch ' '] := ⟨by decide, rfl, rfl⟩
  have hblank : startsBlank [ch ' '] = true := by decide
  have hparse := h.parses _ _ v [ch ' '] (by rw [hnil]; exact hst) (.inl hblank)
  rw [h.fails _ _ _ hst (.inl hblank)] at hparse
  cases hparse

theorem start_append (v : V) (t : List UInt8) : startsBlank (r v ++ t) = false := by
  rw [startsBlank_append (h.render_ne v), h.render_start]

theorem start_closing (t : List UInt8) : startsBlank (closing.text ++ t) = false := by
  rw [startsBlank_append h.closing_ne, h.closing_start]

omit h in
theorem follows_rest (last : Blank) (i : Nat) (vs : List V) (rest : List UInt8) :
    Follows sep closing (renderRest r sep before after i vs ++ (last.1 ++ (closing.text ++ rest))) := by
  cases vs with
  | nil =>
    by_cases hw : last.1 = []
    · right; right
      simp [renderRest, hw]
    · exact .inl (last.startsBlank hw _)
  | cons v vs =>
    by_cases hw : (before i).1 = []
    · right; left
      simp [renderRest, hw]
    · left
      rw [renderRest, List.append_assoc, List.append_assoc]
      exact (before i).startsBlank hw _

theorem separator_fails_closing (last : Blank) {rest : List UInt8}
    (hst : st.Shows mem (last.1 ++ (closing.text ++ rest))) :
    (separator mem [sep]).run st = some none := by
  refine separator_fails last hst (h.start_closing rest) fun hp => ?_
  rcases List.prefix_or_prefix_of_prefix hp (List.prefix_append closing.text rest) with hp | hp
  · exact h.sep_not_prefix hp
  · exact h.closing_not_prefix hp

/-- The rounds of the loop take the rendered elements one after the other and stop before the whitespace
in front of the closing literal. -/
theorem greedy_rest (last : Blank) {rest : List UInt8} (vs : List V) {i : Nat}
    (hst : st.Shows mem
      (renderRest r sep before after i vs ++ (last.1 ++ (closing.text ++ rest)))) :
    Greedy (bind (separator mem [sep]).run fun _ => (elem mem).run) st vs
      (st.removePrefix (renderRest r sep before after i vs).length) := by
  induction vs generalizing i st with
  | nil => exact .stop (bind_fail (h.separator_fails_closing last hst))
  | cons v vs ih =>
    have hshow : st.Shows mem ((before i).1 ++ (sep.text ++ (after i).1) ++
        (r v ++ (renderRest r sep before after (i + 1) vs ++
          (last.1 ++ (closing.text ++ rest))))) := by
      have heq := hst
      rw [renderRest, List.append_assoc, List.append_assoc (r v)] at heq
      exact heq
    have hstart := h.start_append v
      (renderRest r sep before after (i + 1) vs ++ (last.1 ++ (closing.text ++ rest)))
    -- one round: the separator with the blanks around it, and the element behind them
    have hsep := separator_shows (before i) (after i) h.sep_ne h.sep_start
      (by rw [List.append_assoc, List.append_assoc] at hshow; exact hshow) hstart
    have helem := h.parses mem _ v _ hshow.drop (follows_rest last (i + 1) vs rest)
    have hrest := ih hshow.drop.drop
    have hlen : (renderRest r sep before after i (v :: vs)).length =
        ((before i).1 ++ (sep.text ++ (after i).1)).length + (r v).length +
          (renderRest r sep before after (i + 1) vs).length := by
      simp only [renderRest, List.length_append]
      omega
    rw [State.removePrefix_removePrefix, State.removePrefix_removePrefix, ← hlen] at hrest
    refine .step (by rw [bind_some hsep]; exact helem) ?_
    rw [State.removePrefix_removePrefix]
    exact hrest

/-- The rendering of a list is parsed back, and no more than it. -/
theorem run_sequenceEnclosed (first last : Blank) (vs : List V) {rest : List UInt8}
    (hst : st.Shows mem (render r opening sep closing before after first last vs ++ rest)) :
    (sequenceEnclosed mem opening sep closing (elem mem)).run st = some (some
      (st.removePrefix (render r opening sep closing before after first last vs).length, vs)) := by
  have hgood : (st.removePrefix (render r opening sep closing before after first last vs).length).good
      = true := State.good_removePrefix hst.good _
  suffices hb : bracketed mem opening sep closing (elem mem).run pushBack [] st = some (some
      (st.removePrefix (render r opening sep closing before after first last vs).length, vs)) by
    unfold bracketed at hb
    rw [sequenceEnclosed_eq, run_ofAttempt, hb, Option.bind_some, settle_of_good hgood]
  rw [bracketed_eq_some_iff]
  rcases vs with _ | ⟨v, vs⟩
  · -- the opening bracket takes all whitespace there is
    have hshow : st.Shows mem (opening.text ++ ((first.append last).1 ++ (closing.text ++ rest))) := by
      have heq := hst
      simp only [render, renderElems, List.append_assoc, List.nil_append] at heq
      simpa only [Blank.append, List.append_assoc] using heq
    have hopen := openParser_shows (first.append last) hshow (h.start_closing rest)
    have hafter : (st.removePrefix (opening.text ++ (first.append last).1).length).Shows mem
        (closing.text ++ rest) := by
      rw [← List.append_assoc] at hshow; exact hshow.drop
    have hfail := h.fails mem _ _ hafter (.inr (List.prefix_append _ _))
    have hclose := closeParser_shows Blank.none h.closing_ne h.closing_start hafter
    rw [State.removePrefix_removePrefix, ← List.length_append] at hclose
    refine ⟨_, _, hopen, sepBy_pushBack_iff.2 (.nil hfail), ?_⟩
    rw [hclose]
    simp [render, renderElems, Blank.none, Blank.append]
  · have hshow : st.Shows mem (opening.text ++ first.1 ++ (r v ++ (renderRest r sep before after 0 vs ++
        (last.1 ++ (closing.text ++ rest))))) := by
      have heq := hst
      simp only [render, renderElems, List.append_assoc] at heq
      simpa only [List.append_assoc] using heq
    have hopen := openParser_shows first (by rw [List.append_assoc] at hshow; exact hshow)
      (h.start_append v _)
    have helem := h.parses mem _ v _ hshow.drop (follows_rest last 0 vs rest)
    have hrest := h.greedy_rest last vs hshow.drop.drop
    have hclose := closeParser_shows last h.closing_ne h.closing_start hshow.drop.drop.drop
    refine ⟨_, _, hopen, sepBy_pushBack_iff.2 (.cons helem hrest), ?_⟩
    rw [hclose]
    simp [render, renderElems, State.removePrefix_removePrefix, Nat.add_assoc]

end Rendering

/-! ### Lists of `int` -/

/-- `parse_int` -/
def parseInt (mem : Memory) : Parser false ValueType.int := charconv mem intFromChars

theorem startsDigit_of_prefix {c : UInt8} {t : List UInt8} (hp : [c] <+: t) (hc : isDigit c = false) :
    startsDigit t = false := by
  obtain ⟨t, rfl⟩ := hp
  exact hc

theorem isDigit_of_blank {c : UInt8} (h : c ∈ whitespaceChars) :
    isDigit c = false ∧ (ch '-' == c) = false := by
  have hall : whitespaceChars.all (fun c => !isDigit c && !(ch '-' == c)) = true := by decide
  simpa using List.all_eq_true.1 hall c h

/-- Whitespace is neither a digit nor a minus. -/
theorem startsDigit_of_blank (h : startsBlank t = true) :
    startsDigit t = false ∧ [ch '-'].isPrefixOf t = false := by
  cases t with
  | nil => cases h
  | cons c t =>
    obtain ⟨hd, hm⟩ := isDigit_of_blank (by simpa [startsBlank] using h)
    exact ⟨hd, by simp [List.isPrefixOf, hm]⟩

theorem renderInt_start (v : ValueType.int) : startsBlank (renderInt v) = false := by
  have hdigit : ∀ c, isDigit c = true → c ∉ whitespaceChars := by
    intro c hc hmem
    rw [(isDigit_of_blank hmem).1] at hc
    cases hc
  unfold renderInt
  split
  · show decide (ch '-' ∈ whitespaceChars) = false
    decide
  · rcases hd : decimal v.1.natAbs with _ | ⟨c, cs⟩
    · rfl
    · have hc : isDigit c = true := isDigit_of_mem_decimal (n := v.1.natAbs) (by rw [hd]; simp)
      exact decide_eq_false (hdigit c hc)

theorem rendering_parseInt :
    Rendering parseInt renderInt (.charLiteral (ch ',')) (.charLiteral (ch ']')) where
  sep_ne := by decide
  sep_start := by decide
  closing_ne := by decide
  closing_start := by decide
  sep_not_prefix := by decide
  closing_not_prefix := by decide
  render_start := renderInt_start
  parses mem st v t hst ht := by
    have hdigit : startsDigit t = false := by
      rcases ht with hb | hp | hp
      · exact (startsDigit_of_blank hb).1
      · exact startsDigit_of_prefix hp (by decide)
      · exact startsDigit_of_prefix hp (by decide)
    exact (charconv_reads intFromChars).run_some hst (congrArg some (fromCharsInt_render v hdigit))
  fails mem st t hst ht := by
    have hstart : startsDigit t = false ∧ [ch '-'].isPrefixOf t = false := by
      rcases ht with hb | ⟨t, rfl⟩
      · exact startsDigit_of_blank hb
      · exact ⟨by show isDigit (ch ']') = false; decide, rfl⟩
    exact (charconv_reads intFromChars).run_fail hst
      (congrArg some (fromCharsInt_none hstart.2 hstart.1))

/-- A bracketed sequence parses back every rendering of every list, with any whitespace around the
separators and inside of the brackets, and leaves the text that follows. `parse_int` between `[` and `]`
is an instance. -/
theorem sequence_parses_rendering {elem : Memory → Parser g V} {r : V → List UInt8}
    {opening sep closing : AnyLiteral} (h : Rendering elem r sep closing) (vs : List V)
    (first last : Blank) (before after : Nat → Blank) {rest : List UInt8} {mem : Memory}
    (hv : st.Valid) (hst : st.good = true)
    (htext : st.text mem = render r opening sep closing before after first last vs ++ rest) :
    (∃ st', (sequenceEnclosed mem opening sep closing (elem mem)).run st = some (some (st', vs)) ∧
      st'.Suffix st ∧ st'.text mem = rest) ∧
    Rendering parseInt renderInt (.charLiteral (ch ',')) (.charLiteral (ch ']')) := by
  have hshow : st.Shows mem (render r opening sep closing before after first last vs ++ rest) :=
    ⟨hv, hst, htext⟩
  have hle : (render r opening sep closing before after first last vs).length ≤ (st.text mem).length := by
    rw [htext, List.length_append]
    omega
  exact ⟨⟨_, h.run_sequenceEnclosed first last vs hshow, State.suffix_removePrefix hle hv,
    hshow.drop.text⟩, rendering_parseInt⟩

/-- `[ 1 ,-2]` with a blank before and after the first element. -/
theorem sequence_parses_rendering_int :
    let mem := Memory.ofText [ch '[', ch ' ', ch '1', ch ' ', ch ',', ch '-', ch '2', ch ']', ch 'x']
    ∃ st', (sequenceEnclosed mem (.charLiteral (ch '[')) (.charLiteral (ch ',')) (.charLiteral (ch ']'))
        (parseInt mem)).run (State.ofLength 9) =
          some (some (st', [⟨1, by decide⟩, ⟨-2, by decide⟩])) ∧
      st'.Suffix (State.ofLength 9) ∧ st'.text mem = [ch 'x'] := by
  intro mem
  let blank : Blank := ⟨[ch ' '], fun c hc => by rw [List.mem_singleton.1 hc]; decide⟩
  exact (sequence_parses_rendering rendering_parseInt [⟨1, by decide⟩, ⟨-2, by decide⟩] blank Blank.none
    (fun _ => blank) (fun _ => Blank.none) (by decide) rfl (by decide)).1

end Noam
