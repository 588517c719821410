import Noam.Language
import Noam.Rendering
import Noam.Strings

/-!
# How an empty view is represented

The outcome of a parse depends on the text alone, among states that are both null or both not: evaluation
respects the relation "the same text". `parse_string` respects it, too, where no quote in the text has
behind it an encoded string that ends with the text and in an escape; there it looks at the next byte of
memory, and each such text has two views that are told apart.
-/

namespace Noam
open GetResult ValueType Loop Attempt

variable {V : ValueType} {g : Bool} {mem : Memory} {R : State → State → Prop} {s t st : State}

/-- Valid states of one text, both null or both not. -/
structure SameText (mem : Memory) (s t : State) : Prop where
  left : s.Valid
  right : t.Valid
  text : s.text mem = t.text mem
  good : s.good = t.good

theorem textRel_sameText (mem : Memory) : TextRel mem (SameText mem) where
  good _ _ h := h.good
  valid _ _ h := ⟨h.left, h.right⟩
  text _ _ h := h.text
  removePrefix s t n h hn := by
    have ht : n ≤ (t.text mem).length := h.text ▸ hn
    refine ⟨(State.suffix_removePrefix hn h.left).valid, (State.suffix_removePrefix ht h.right).valid,
      ?_, State.good_removePrefix_eq h.good n⟩
    rw [State.text_removePrefix, State.text_removePrefix, h.text]

/-! ### `parse_string` -/

/-- Behind some quote in the text there is an encoded string and one more escape, and then the end. -/
def EscapeAtEnd (text : List UInt8) : Prop :=
  ∃ pre e str c v, Encodes e str ∧ escapeCode c = some v ∧ text = pre ++ ch '"' :: (e ++ [ch '\\', c])

theorem EscapeAtEnd.of_drop {text : List UInt8} {n : Nat} (h : EscapeAtEnd (text.drop n)) :
    EscapeAtEnd text := by
  obtain ⟨pre, e, str, c, v, he, hcode, hdrop⟩ := h
  refine ⟨text.take n ++ pre, e, str, c, v, he, hcode, ?_⟩
  rw [List.append_assoc, ← hdrop, List.take_append_drop]

theorem EscapeAtEnd.getLast {text : List UInt8} (h : EscapeAtEnd text) :
    ∃ c, text.getLast? = some c ∧ (escapeCode c).isSome := by
  obtain ⟨pre, e, str, c, v, -, hcode, rfl⟩ := h
  refine ⟨c, List.getLast?_eq_some_iff.2 ⟨pre ++ ch '"' :: (e ++ [ch '\\']), by simp⟩, ?_⟩
  rw [hcode]
  rfl

/-- A failed `parse_string` returns `{}`. -/
theorem stringParser_eq (mem : Memory) : stringParser mem = .ofAttempt false (stringParser mem).run := by
  refine Parser.ext fun st => ?_
  rw [Parser.parse_ofAttempt]
  by_cases hstart : st.size ≥ 2 ∧ st.get mem 0 = ch '"'
  · rcases hl : loop (stringRound mem st (toSizeT (st.size - 1))) (1, []) with _ | _ | ⟨i, str⟩
    · simp [Parser.run, stringParser, hstart, hl]
    · rw [run_stringParser_unknown hstart hl]
      simp [stringParser, hstart, hl, ofOutcome]
    · rw [run_stringParser hstart hl]
      by_cases hquote : st.get mem i = ch '"'
      · simp [stringParser, hstart, hl, hquote, ofOutcome, State.substr, State.removePrefix]
      · simp [stringParser, hstart, hl, hquote, ofOutcome]
  · rw [run_stringParser_skip hstart]
    simp [stringParser, hstart, ofOutcome]

/-- Valid states of one text whose `parse_string` looks at nothing but the text. -/
structure SameString (mem : Memory) (s t : State) : Prop extends SameText mem s t where
  left_lt : s._end < 2 ^ 64
  right_lt : t._end < 2 ^ 64
  ends : ¬ EscapeAtEnd (s.text mem)

theorem textRel_sameString (mem : Memory) : TextRel mem (SameString mem) where
  good _ _ h := h.good
  valid _ _ h := ⟨h.left, h.right⟩
  text _ _ h := h.text
  removePrefix s t n h hn := by
    refine ⟨(textRel_sameText mem).removePrefix s t n h.toSameText hn, h.left_lt, h.right_lt, fun hend => ?_⟩
    rw [State.text_removePrefix] at hend
    exact h.ends hend.of_drop

theorem rel_stringParser (mem : Memory) : (stringParser mem).Rel (SameString mem) (stringParser mem) := by
  rw [stringParser_eq]
  refine rel_ofAttempt (keptAlike_refl (textRel_sameString mem).good false) (fun s t h => ?_) (by simp) (by simp)
  have hs : s.IsView := ⟨h.left, h.left_lt⟩
  have ht : t.IsView := ⟨h.right, h.right_lt⟩
  by_cases hstart : ∃ body, body ≠ [] ∧ s.text mem = ch '"' :: body
  · obtain ⟨body, hne, htext⟩ := hstart
    have htext' : t.text mem = ch '"' :: body := h.text ▸ htext
    -- what stands behind the quote decides both runs
    cases stringBody body hne with
    | @closed e str r he =>
      rw [run_closed hs htext he rfl, run_closed ht htext' he rfl]
      exact .some (.some ⟨(textRel_sameString mem).removePrefix s t _ h (text_after_closed htext).2, rfl⟩)
    | unknown he hcode =>
      rw [run_unknown hs htext he rfl hcode, run_unknown ht htext' he rfl hcode]
      exact .some .none
    | unclosed he hc =>
      rw [run_unclosed hs htext he rfl hc, run_unclosed ht htext' he rfl hc]
      exact .some .none
    | escapeAtEnd he hcode => exact absurd ⟨[], _, _, _, _, he, hcode, htext⟩ h.ends
  · have hstart' := hstart
    rw [h.text] at hstart'
    rw [run_stringParser_skip (mt (starts_iff hs).1 hstart), run_stringParser_skip (mt (starts_iff ht).1 hstart')]
    exact .some .none

/-! ### Independence of the representation -/

/-- Results that are equally good and, when good, have the same value and leave the same text. -/
def SameResult (mem : Memory) (r r' : GetResult V g) : Prop :=
  r.toBool = r'.toBool ∧
    (r.toBool = true → r.getValue? = r'.getValue? ∧ r.getState.eq mem r'.getState = true)

theorem rel_sameResult (hR : ∀ s t, R s t → SameText mem s t) {p : Parser g V} (h : p.Rel R p) (hst : R s t) :
    Option.Rel (SameResult mem) (p.parse s) (p.parse t) := by
  refine Loop.rel_mono (fun r r' hr => ⟨hr.toBool, fun hb => ⟨hr.value, ?_⟩⟩) (h s t hst)
  have hsame := hR _ _ (hr.state hb)
  exact (State.eq_iff hsame.left hsame.right).2 hsame.text

theorem run_sameResult {p : Parser g V} (h : Option.Rel (SameResult mem) (p.parse s) (p.parse t)) {s' : State}
    {v : V} (hs : p.run s = some (some (s', v))) :
    ∃ t', p.run t = some (some (t', v)) ∧ s'.eq mem t' = true := by
  obtain ⟨r, hr, hout⟩ := Option.map_eq_some_iff.1 hs
  obtain ⟨hb, rfl, hv⟩ := outcome_eq_some hout
  rw [hr] at h
  rcases ht : p.parse t with _ | r' <;> rw [ht] at h <;> cases h
  rename_i h
  obtain ⟨hvalue, hstate⟩ := h.2 hb
  refine ⟨r'.getState, ?_, hstate⟩
  rw [Parser.run, ht, Option.map_some, GetResult.outcome, if_pos (h.1 ▸ hb), ← hvalue, hv]
  rfl

/-- A reference that is bound to `parse_string`. -/
def stringEnv (mem : Memory) : Env [string] := Env.cons (stringParser mem) Env.nil

/-- The parse of two states that are equal under `operator==`, and both null or both not. With a
reference that is bound to `parse_string` the text must not have an escape at its end in a string. -/
theorem eval_equal_states (mem : Memory) (hs : s.Valid) (ht : t.Valid) (hgood : s.good = t.good)
    (heq : s.eq mem t = true) :
    (∀ {g : Bool} {V : ValueType} (e : Expr [] g V),
      Option.Rel (SameResult mem) ((e.eval mem Env.nil).parse s) ((e.eval mem Env.nil).parse t)) ∧
    (s.IsView → t.IsView → ¬ EscapeAtEnd (s.text mem) →
      ∀ {g : Bool} {V : ValueType} (e : Expr [string] g V), Option.Rel (SameResult mem)
        ((e.eval mem (stringEnv mem)).parse s) ((e.eval mem (stringEnv mem)).parse t)) := by
  have hst : SameText mem s t := ⟨hs, ht, (State.eq_iff hs ht).1 heq, hgood⟩
  constructor
  · intro g V e
    exact rel_sameResult (fun _ _ h => h) (e.eval_rel (textRel_sameText mem).admissible Env.rel_nil) hst
  · intro hsview htview hend g V e
    -- the reference is related to itself, as the intrinsics are
    have henv : Env.Rel (SameString mem) (stringEnv mem) (stringEnv mem) :=
      Env.Rel.cons (rel_stringParser mem) Env.rel_nil
    exact rel_sameResult (fun _ _ h => h.toSameText) (e.eval_rel (textRel_sameString mem).admissible henv)
      ⟨hst, hsview.end_lt, htview.end_lt, hend⟩

/-- A string in brackets, in two views of `["\n"]`. -/
theorem eval_equal_states_brackets :
    let mem := Memory.ofText [ch '[', ch '"', ch '\\', ch 'n', ch '"', ch ']', ch '[', ch '"', ch '\\',
      ch 'n', ch '"', ch ']']
    let e : Expr [string] false string := .enclose (.intrinsic (.literal [.charLiteral (ch '[')])) (.var .zero)
      (.intrinsic (.literal [.charLiteral (ch ']')]))
    (e.eval mem (stringEnv mem)).run ⟨1, 7⟩ = some (some (⟨7, 7⟩, [ch '\n'])) ∧
      ∃ t', (e.eval mem (stringEnv mem)).run ⟨7, 13⟩ = some (some (t', [ch '\n'])) ∧
        State.eq mem ⟨7, 7⟩ t' = true := by
  intro mem e
  have hend : ¬ EscapeAtEnd (State.text mem ⟨1, 7⟩) := by
    intro hend
    obtain ⟨c, hlast, hcode⟩ := hend.getLast
    cases hlast
    exact absurd hcode (by decide)
  have hsame := (eval_equal_states mem (s := ⟨1, 7⟩) (t := ⟨7, 13⟩) (by decide) (by decide) (by decide)
    (by decide)).2 ⟨by decide, by decide⟩ ⟨by decide, by decide⟩ hend e
  have hstring : (stringParser mem).run ⟨2, 7⟩ = some (some (⟨6, 7⟩, [ch '\n'])) :=
    run_closed (e := [ch '\\', ch 'n']) (r := [ch ']']) ⟨by decide, by decide⟩ rfl (.code rfl .nil) rfl
  have hrun : (e.eval mem (stringEnv mem)).run ⟨1, 7⟩ = some (some (⟨7, 7⟩, [ch '\n'])) := by
    show (enclose (literal mem [.charLiteral (ch '[')]) (stringParser mem)
      (literal mem [.charLiteral (ch ']')])).run ⟨1, 7⟩ = _
    rw [enclose_eq, run_ofAttempt, bind_some (show (literal mem [.charLiteral (ch '[')]).run ⟨1, 7⟩ =
      some (some (⟨2, 7⟩, ())) from rfl), bind_some hstring]
    rfl
  exact ⟨hrun, run_sameResult hsame hrun⟩

/-! ### Views that are told apart -/

/-- Behind a view that an escape ends, `parse_string` looks for the closing quote. -/
theorem run_escapeAtEnd {e str : List UInt8} {c v : UInt8} (hst : st.IsView)
    (htext : st.text mem = ch '"' :: (e ++ [ch '\\', c])) (he : Encodes e str) (hcode : escapeCode c = some v) :
    (stringParser mem).run st = some (if mem st._end = ch '"' then
      some (st.removePrefix ((st.text mem).length + 1), str ++ [v]) else none) := by
  have hl := loop_escapeAtEnd hst htext he rfl hcode
  have hlast : st.get mem (st.text mem).length = mem st._end := by
    rw [State.get, State.length_text, Nat.add_sub_cancel' hst.valid]
  rw [run_stringParser (starts_of_text hst htext (by simp)) hl, hlast]

theorem AnyLiteral.exists_text : (t : List UInt8) → ∃ lit : AnyLiteral, lit.text = t
  | [] => ⟨.emptyLiteral, rfl⟩
  | c :: t => ⟨.stringLiteral (c :: t), rfl⟩

/-- A literal, and behind it a string. -/
def literalThenString (lit : AnyLiteral) : Expr [string] false string :=
  .shiftRight (.intrinsic (.literal [lit])) (.var .zero)

theorem run_literalThenString {lit : AnyLiteral} {e str : List UInt8} {c v : UInt8} (hst : st.IsView)
    (hshows : st.Shows mem (lit.text ++ ch '"' :: (e ++ [ch '\\', c]))) (he : Encodes e str)
    (hcode : escapeCode c = some v) : ∃ st', ((literalThenString lit).eval mem (stringEnv mem)).run st =
      some (if mem st._end = ch '"' then some (st', str ++ [v]) else none) := by
  let st₁ := st.removePrefix lit.text.length
  have hdrop : st₁.Shows mem (ch '"' :: (e ++ [ch '\\', c])) := hshows.drop
  have hstring := run_escapeAtEnd ⟨hdrop.valid, hst.end_lt⟩ hdrop.text he hcode
  have hseq : (shiftRight (literal mem [lit]) (stringParser mem)).run st =
      ((stringParser mem).run st₁).bind (settle false) := by
    rw [shiftRight_eq, run_ofAttempt, bind_some (literal_shows hshows)]
  refine ⟨st₁.removePrefix ((st₁.text mem).length + 1), hseq.trans ?_⟩
  rw [hstring, Option.bind_some]
  by_cases hquote : mem st._end = ch '"'
  · rw [if_pos hquote, if_pos (show mem st₁._end = ch '"' from hquote),
      settle_of_good (State.good_removePrefix hdrop.good _)]
  · rw [if_neg hquote, if_neg (show mem st₁._end ≠ ch '"' from hquote)]
    rfl

/-- Every text with an escape at its end in a string has two equal views that are told apart: one that a
quote stands behind and one that none does. -/
theorem EscapeAtEnd.differ {text : List UInt8} (h : EscapeAtEnd text) (hlen : 2 * text.length + 2 < 2 ^ 64) :
    ∃ (mem : Memory) (s t : State) (e : Expr [string] false string), s.IsView ∧ t.IsView ∧
      s.good = true ∧ t.good = true ∧ s.text mem = text ∧ s.eq mem t = true ∧
      ¬ Option.Rel (SameResult mem) ((e.eval mem (stringEnv mem)).parse s)
        ((e.eval mem (stringEnv mem)).parse t) := by
  -- the text twice, with a quote behind the first one
  let mem := Memory.ofText (text ++ ch '"' :: text)
  let s : State := ⟨1, 1 + text.length⟩
  let t : State := ⟨1 + (text.length + 1), 1 + (text.length + 1) + text.length⟩
  have hs : s.Shows mem text := State.shows_ofText_append [] text (ch '"' :: text)
  have ht : t.Shows mem text := by
    have ht := State.shows_ofText_append (text ++ [ch '"']) text []
    rwa [List.append_nil, List.append_assoc, List.singleton_append, List.length_append,
      List.length_singleton] at ht
  have hquote : mem s._end = ch '"' :=
    (List.cons.inj (Memory.read_ofText text [ch '"'] text)).1
  have hnone : mem t._end ≠ ch '"' := by
    have hbehind : mem t._end = 0 := List.getD_eq_default _ _ (by simp [t]; omega)
    rw [hbehind]
    decide
  have hsview : s.IsView := ⟨hs.valid, by show 1 + text.length < 2 ^ 64; omega⟩
  have htview : t.IsView := ⟨ht.valid, by show 1 + (text.length + 1) + text.length < 2 ^ 64; omega⟩
  have heq : s.eq mem t = true := (State.eq_iff hs.valid ht.valid).2 (hs.text.trans ht.text.symm)
  obtain ⟨pre, e, str, c, v, he, hcode, htext⟩ := h
  obtain ⟨lit, rfl⟩ := AnyLiteral.exists_text pre
  rw [htext] at hs ht
  obtain ⟨s', hrun⟩ := run_literalThenString hsview hs he hcode
  obtain ⟨t', hrun'⟩ := run_literalThenString htview ht he hcode
  rw [if_pos hquote] at hrun
  rw [if_neg hnone] at hrun'
  refine ⟨mem, s, t, literalThenString lit, hsview, htview, hs.good, ht.good, hs.text.trans htext.symm, heq,
    fun hrel => ?_⟩
  obtain ⟨t'', ht'', -⟩ := run_sameResult hrel hrun
  cases hrun'.symm.trans ht''

/-- Equal states that are told apart: a null view and an empty one, by a fallible result that is good
when its state is not null; and two views of `"\n`, by the character behind the view, at which
`parse_string` looks when an escape ends the view. -/
theorem equal_states_differ :
    let blank := Memory.ofText []
    let e : Expr [] false empty := .enclose (.intrinsic .whitespace) (.intrinsic (.pure (V := empty) ()))
      (.intrinsic .whitespace)
    let mem := Memory.ofText [ch '"', ch '\\', ch 'n', ch '"', 0, ch '"', ch '\\', ch 'n']
    (nullState.eq blank ⟨1, 1⟩ = true ∧ (e.eval blank Env.nil).run nullState = some none ∧
      (e.eval blank Env.nil).run ⟨1, 1⟩ = some (some (⟨1, 1⟩, ()))) ∧
    (State.eq mem ⟨1, 4⟩ ⟨6, 9⟩ = true ∧
      (stringParser mem).run ⟨1, 4⟩ = some (some (⟨5, 4⟩, [ch '\n'])) ∧
      (stringParser mem).run ⟨6, 9⟩ = some none) := by
  intro blank e mem
  have hcode : escapeCode (ch 'n') = some (ch '\n') := rfl
  have hclosed : (State.mk 1 4).IsView := ⟨by decide, by decide⟩
  have hopen : (State.mk 6 9).IsView := ⟨by decide, by decide⟩
  refine ⟨⟨rfl, rfl, rfl⟩, by decide, ?_, ?_⟩
  · exact (run_escapeAtEnd hclosed (show State.text mem ⟨1, 4⟩ = ch '"' :: ([] ++ [ch '\\', ch 'n']) from rfl)
      .nil hcode).trans rfl
  · exact (run_escapeAtEnd hopen (show State.text mem ⟨6, 9⟩ = ch '"' :: ([] ++ [ch '\\', ch 'n']) from rfl)
      .nil hcode).trans rfl

end Noam
