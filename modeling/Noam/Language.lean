import Noam.Expr
import Noam.Refinement

/-!
# What every parser expression has in common

Two consequences of evaluation respecting relations on states: the state that is left is a suffix of
the input (from the relation "equal, and a suffix of the input"), and the branches taken for results
known to be good are sound (from "equal and not null").
-/

namespace Noam
open GetResult ValueType Loop Attempt

variable {V W : ValueType} {g : Bool} {gs : List Bool} {mem : Memory}
variable {R : State → State → Prop} {s t st st' : State}

/-! ### Relations between states of one text -/

/-- Related states have one text, and so have the states after as many characters of it. -/
structure TextRel (mem : Memory) (R : State → State → Prop) : Prop where
  good : ∀ s t, R s t → s.good = t.good
  valid : ∀ s t, R s t → s.Valid ∧ t.Valid
  text : ∀ s t, R s t → s.text mem = t.text mem
  removePrefix : ∀ s t n, R s t → n ≤ (s.text mem).length → R (s.removePrefix n) (t.removePrefix n)

theorem Parser.Reads.rel {p : Parser g V} {F : OnText V} (h : p.Reads mem F) (hR : TextRel mem R) :
    p.Rel R p := by
  intro s t hst
  obtain ⟨hs, ht⟩ := hR.valid s t hst
  rw [h.parse_eq s hs, h.parse_eq t ht, ← hR.text s t hst]
  rcases hF : F (s.text mem) with _ | _ | ⟨n, v⟩
  · exact .none
  · cases g
    · exact .some rel_failed
    · exact .none
  · have hn := hR.removePrefix s t n hst (h.le_length hF)
    rw [Option.bind_some, Option.bind_some, Option.map_some, Option.map_some, ofOutcome_some,
      ofOutcome_some]
    exact .some (rel_of (keptAlike_refl hR.good g) hn v)

theorem TextRel.admissible (hR : TextRel mem R) : Admissible mem R where
  good := hR.good
  intrinsic i := by
    have hresp : Respected mem R := ⟨keptAlike_refl hR.good false,
      fun lits => (literal_reads lits).rel hR, fun chars => (zeroOrMoreChars_reads chars).rel hR⟩
    cases i with
    | pure value => exact (pureParser_reads value).rel hR
    | charconv fc => exact (charconv_reads fc).rel hR
    | literal lits => exact (literal_reads lits).rel hR
    | literalMakes _ h lits => exact (literalMakes_reads _ h lits).rel hR
    | literalConstant constant lits => exact (literalConstant_reads constant lits).rel hR
    | matchChs chars => exact (zeroOrMoreChars_reads chars).rel hR
    | countCh chars => exact (countChars_reads chars).rel hR
    | whitespace => exact (zeroOrMoreChars_reads whitespaceChars).rel hR
    | separator sep => exact hresp.separator sep
    | parseBool => exact boolParser_reads.rel hR
    | parseLine => exact lineParser_reads.rel hR
    | viewParser begin_ end_ escape => exact (viewParser_reads begin_ end_ escape).rel hR
    | testPrefix pre h => exact (testPrefix_reads h).rel hR
    | requirePrefix pre h => exact (requirePrefix_reads h).rel hR

/-- The suffixes of `st`. -/
def SuffixRel (st s t : State) : Prop := s = t ∧ s.Suffix st

theorem textRel_suffix (mem : Memory) (st : State) : TextRel mem (SuffixRel st) where
  good := by rintro s t ⟨rfl, -⟩; rfl
  valid := by rintro s t ⟨rfl, h⟩; exact ⟨h.valid, h.valid⟩
  text := by rintro s t ⟨rfl, -⟩; rfl
  removePrefix := by
    rintro s t n ⟨rfl, h⟩ hn
    exact ⟨rfl, h.trans (State.suffix_removePrefix hn h.valid)⟩

/-! ### Suffixes -/

/-- A parser expression that succeeds on a valid state leaves a suffix of it. -/
theorem eval_suffix (mem : Memory) (e : Expr [] g V) {v : V} (hst : st.Valid)
    (h : (e.eval mem Env.nil).run st = some (some (st', v))) : st'.Suffix st := by
  have hrel := (e.eval_rel (textRel_suffix mem st).admissible Env.rel_nil).run st st
    ⟨rfl, .refl hst⟩
  rw [h] at hrel
  cases hrel with
  | some h => cases h with
    | some h => exact h.1.2

/-- `parse_bool` behind two blanks. -/
theorem eval_suffix_bool : State.Suffix ⟨7, 7⟩ ⟨1, 7⟩ :=
  eval_suffix (V := bool) (v := true)
    (Memory.ofText [ch ' ', ch ' ', ch 't', ch 'r', ch 'u', ch 'e'])
    (.shiftRight (.intrinsic .whitespace) (.intrinsic .parseBool)) (by decide) rfl

/-! ### Results known to be good -/

theorem admissible_nonNull (mem : Memory) : Admissible mem NonNullRel where
  good := by rintro s t ⟨rfl, -⟩; rfl
  intrinsic i := by
    cases i with
    | pure value => exact (pureParser_advances value).rel
    | charconv fc => exact (charconv_advances fc).rel
    | literal lits => exact (literal_advances lits).rel
    | literalMakes _ h lits => exact (literalMakes_advances _ h lits).rel
    | literalConstant constant lits => exact (literalConstant_advances constant lits).rel
    | matchChs chars => exact (zeroOrMoreChars_advances chars).rel
    | countCh chars => exact (countChars_advances chars).rel
    | whitespace => exact (zeroOrMoreChars_advances whitespaceChars).rel
    | separator sep => exact (respected_nonNull mem).separator sep
    | parseBool => exact boolParser_advances.rel
    | parseLine => exact lineParser_advances.rel
    | viewParser begin_ end_ escape => exact (viewParser_advances begin_ end_ escape).rel
    | testPrefix pre h => exact (testPrefix_advances pre).rel
    | requirePrefix pre h => exact (requirePrefix_advances pre).rel

theorem run_evalChecked (e : Expr [] g V) (hst : st.good = true) :
    (e.eval mem Env.nil).run st = (e.evalChecked mem Env.nil).run st := by
  have hgood : ∀ s t, NonNullRel s t → s.good = true ∧ t.good = true := by
    rintro s t ⟨rfl, hs⟩; exact ⟨hs, hs⟩
  have hrel := (e.evalChecked_rel (admissible_nonNull mem) hgood Env.rel_nil).run
  exact (rel_eq_iff.1 hrel).1 st hst

/-- Evaluation by the flags is checked evaluation. A parser that is known to be good never fails
when its results are checked, and an `either` that is known to be good always finds an alternative:
it has a result whenever its alternatives have. -/
theorem eval_sound (mem : Memory) (e : Expr [] g V) (es : Choices [] W gs) (hst : st.good = true) :
    (e.eval mem Env.nil).run st = (e.evalChecked mem Env.nil).run st ∧
    (g = true → (e.evalChecked mem Env.nil).run st ≠ some none) ∧
    (eitherGood gs = true →
      (∀ x, (es.eval mem Env.nil).assignFirst st W.default? = some x → x.1 = true) ∧
      ((either (es.eval mem Env.nil)).parse st = none → (es.eval mem Env.nil).runFirst st = none)) := by
  refine ⟨run_evalChecked e hst, fun hg => ?_, fun hg => ⟨fun x hx => ?_, fun hnone => ?_⟩⟩
  · rw [← run_evalChecked e hst]
    subst hg
    exact (e.eval mem Env.nil).neverFails st
  · rw [Alternatives.assignFirst_eq] at hx
    obtain ⟨o, ho, rfl⟩ := Option.map_eq_some_iff.1 hx
    rcases o with _ | ⟨st', w⟩
    · exact absurd ho (neverFails_either _ hg st)
    · rfl
  · have hrun : (either (es.eval mem Env.nil)).run st = none := by rw [Parser.run, hnone]; rfl
    rw [run_either, run_ofAttempt] at hrun
    rcases h : (es.eval mem Env.nil).runFirst st with _ | _ | x
    · rfl
    · exact absurd h (neverFails_either _ hg st)
    · rw [h] at hrun; cases hrun

/-- `match {whitespace, parse_line}`, and `either` of a boolean and a constant. -/
theorem eval_sound_line :
    let mem := Memory.ofText [ch 'x']
    let e : Expr [] true empty :=
      .match_ (.cons (.intrinsic .whitespace) (.cons (.intrinsic .parseLine) .nil))
    let es : Choices [] bool [false, true] :=
      .cons (.intrinsic .parseBool) .same (.cons (.intrinsic (.pure (V := bool) true)) .same .nil)
    (e.eval mem Env.nil).run ⟨1, 2⟩ = (e.evalChecked mem Env.nil).run ⟨1, 2⟩ ∧
      ((either (es.eval mem Env.nil)).parse ⟨1, 2⟩ = none →
        (es.eval mem Env.nil).runFirst ⟨1, 2⟩ = none) := by
  intro mem e es
  have h := eval_sound mem e es (show (State.ofLength 1).good = true from rfl)
  exact ⟨h.1, (h.2.2 rfl).2⟩

/-- `sequence` of a parser that takes nothing, separated by one that takes nothing, is known to be good
and never returns. -/
theorem sequence_pure_diverges :
    let e : Expr [] true (vector empty) := .sequence (.intrinsic (.pure (V := empty) ()))
      (.intrinsic (.pure (V := empty) ()))
    (e.evalChecked (Memory.ofText []) Env.nil).run ⟨1, 1⟩ = none := by
  intro e
  have hp : NeverFails (pureParser (V := empty) ()).run := (pureParser (V := empty) ()).neverFails
  have hloop : ∀ a st, separated (pureParser (V := empty) ()).run (pureParser (V := empty) ()).run
      pushBack a st = none :=
    iterate_of_neverFails fun a => (hp.bind fun _ => hp).map _
  have hsep : sepBy (pureParser (V := empty) ()).run (pureParser (V := empty) ()).run pushBack []
      ⟨1, 1⟩ = none := orElse_none ((bind_some rfl).trans (hloop _ _))
  rw [← run_evalChecked e rfl]
  show (sequence (pureParser (V := empty) ()) (pureParser (V := empty) ())).run ⟨1, 1⟩ = none
  rw [sequence_eq, run_ofAttempt, hsep]; rfl

end Noam
