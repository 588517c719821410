import Noam.Progress

/-!
# Prefix matchers and literal sets

Each of the matchers of a prefix (`starts_with` for a state, an array and a character, `test_prefix`,
`require_prefix`, and the literals) has a comparison of its own and says yes exactly when the prefix
is there (`Matchers`). A set of literals is tried in the order of the list (`LiteralSet`), like `either`
of its members.
-/

namespace Noam
open GetResult ValueType Attempt

variable {V : ValueType} {mem : Memory} {st pre : State} {x : List UInt8}

/-- What the matchers say of the prefix `x`, which is the text of the state `pre`. -/
structure Matchers (mem : Memory) (st pre : State) (x : List UInt8) : Prop where
  startsWith : st.startsWith mem pre = true ↔ x <+: st.text mem
  startsWithArray : st.startsWithArray mem x = true ↔ x <+: st.text mem
  startsWithChar : ∀ c, x = [c] → (st.startsWithChar mem c = true ↔ x <+: st.text mem)
  requirePrefix : (requirePrefix mem pre).run st =
    if x <+: st.text mem then some (some (st.removePrefix x.length, pre)) else some none
  testPrefix : (testPrefix mem pre).run st =
    if x <+: st.text mem then some (some (st.removePrefix x.length, true)) else some (some (st, false))
  literal : ∀ lit : AnyLiteral, lit.text = x → (literal mem [lit]).run st =
    if x <+: st.text mem then some (some (st.removePrefix x.length, ())) else some none
  rest : x <+: st.text mem → st.text mem = x ++ (st.removePrefix x.length).text mem

/-- `literal<L1>, …, literal<Ln>` as alternatives. -/
def literalAlternatives (mem : Memory) :
    (lits : List AnyLiteral) → Alternatives empty (lits.map fun _ => false)
  | [] => .nil
  | lit :: lits => .cons (literal mem [lit]) .same (literalAlternatives mem lits)

/-- What the parsers of a set of literals do: they take the first literal that is a prefix. -/
structure LiteralSet (mem : Memory) (st : State) (lits : List AnyLiteral) : Prop where
  literal : (literal mem lits).run st = some ((AnyLiteral.firstPrefix lits (st.text mem)).map fun lit =>
    (st.removePrefix lit.size, ()))
  literalMakes : ∀ (T : ValueType) (h : T.default?.isSome), (literalMakes mem T h lits).run st =
    some ((AnyLiteral.firstPrefix lits (st.text mem)).map fun lit =>
      (st.removePrefix lit.size, T.default?.get h))
  literalConstant : ∀ (V : ValueType) (constant : V), (literalConstant mem constant lits).run st =
    some ((AnyLiteral.firstPrefix lits (st.text mem)).map fun lit =>
      (st.removePrefix lit.size, constant))
  either : (either (literalAlternatives mem lits)).run st = (Noam.literal mem lits).run st
  first : ∀ lit, AnyLiteral.firstPrefix lits (st.text mem) = some lit ↔
    ∃ before after, lits = before ++ lit :: after ∧ lit.text <+: st.text mem ∧
      ∀ l ∈ before, ¬ l.text <+: st.text mem
  none : AnyLiteral.firstPrefix lits (st.text mem) = .none ↔ ∀ lit ∈ lits, ¬ lit.text <+: st.text mem

/-! ### One prefix -/

theorem length_lt_of_isView (hpre : pre.IsView) : (pre.text mem).length < 2 ^ 64 := by
  have := hpre.end_lt
  rw [State.length_text]; omega

theorem run_requirePrefix (hv : st.Valid) (hst : st.good = true) (hpre : pre.IsView) :
    (requirePrefix mem pre).run st =
      if pre.text mem <+: st.text mem then some (some (st.removePrefix (pre.text mem).length, pre))
      else some none := by
  have hreads : (requirePrefix mem pre).Reads mem (requirePrefixText pre mem) :=
    requirePrefix_reads hpre.valid
  split
  · rename_i h
    refine hreads.run_of_good hv hst ?_
    rw [requirePrefixText, if_pos (List.isPrefixOf_iff_prefix.2 h),
      Nat.mod_eq_of_lt (length_lt_of_isView hpre)]
  · rename_i h
    rw [hreads.run_eq hv, requirePrefixText, if_neg (mt List.isPrefixOf_iff_prefix.1 h)]; rfl

theorem run_testPrefix (hv : st.Valid) (hst : st.good = true) (hpre : pre.IsView) :
    (testPrefix mem pre).run st =
      if pre.text mem <+: st.text mem then some (some (st.removePrefix (pre.text mem).length, true))
      else some (some (st, false)) := by
  have hreads : (testPrefix mem pre).Reads mem (testPrefixText (pre.text mem)) :=
    testPrefix_reads hpre.valid
  split
  · rename_i h
    refine hreads.run_of_good hv hst ?_
    rw [testPrefixText, if_pos (List.isPrefixOf_iff_prefix.2 h),
      Nat.mod_eq_of_lt (length_lt_of_isView hpre)]
  · rename_i h
    refine hreads.run_of_good (k := 0) hv hst ?_
    rw [testPrefixText, if_neg (mt List.isPrefixOf_iff_prefix.1 h)]

/-! ### Literals -/

theorem run_literalText {p : Parser false V} {lits : List AnyLiteral} {v : V}
    (h : p.Reads mem (literalText lits v)) (hv : st.Valid) (hst : st.good = true) :
    p.run st = some ((AnyLiteral.firstPrefix lits (st.text mem)).map fun lit =>
      (st.removePrefix lit.size, v)) := by
  rcases hf : AnyLiteral.firstPrefix lits (st.text mem) with _ | lit
  · rw [h.run_eq hv, literalText, hf]; rfl
  · rw [h.run_of_good hv hst (k := lit.size) (v := v) (by rw [literalText, hf]; rfl)]; rfl

theorem firstPrefix_cons (lit : AnyLiteral) (lits : List AnyLiteral) (text : List UInt8) :
    AnyLiteral.firstPrefix (lit :: lits) text =
      if lit.text <+: text then some lit else AnyLiteral.firstPrefix lits text := by
  rw [AnyLiteral.firstPrefix, List.find?_cons, ← AnyLiteral.firstPrefix]
  by_cases h : lit.text <+: text
  · rw [if_pos h, List.isPrefixOf_iff_prefix.2 h]
  · rw [if_neg h, Bool.eq_false_iff.2 (mt List.isPrefixOf_iff_prefix.1 h)]

theorem firstPrefix_eq_some_iff {lits : List AnyLiteral} {text : List UInt8} {lit : AnyLiteral} :
    AnyLiteral.firstPrefix lits text = some lit ↔
      ∃ before after, lits = before ++ lit :: after ∧ lit.text <+: text ∧
        ∀ l ∈ before, ¬ l.text <+: text := by
  rw [AnyLiteral.firstPrefix, List.find?_eq_some_iff_append]
  simp only [List.isPrefixOf_iff_prefix, Bool.not_eq_true', Bool.eq_false_iff, ne_eq]
  constructor
  · rintro ⟨hp, before, after, h, hb⟩
    exact ⟨before, after, h, hp, hb⟩
  · rintro ⟨before, after, h, hp, hb⟩
    exact ⟨hp, before, after, h, hb⟩

theorem firstPrefix_eq_none_iff {lits : List AnyLiteral} {text : List UInt8} :
    AnyLiteral.firstPrefix lits text = none ↔ ∀ lit ∈ lits, ¬ lit.text <+: text := by
  simp [AnyLiteral.firstPrefix]

/-- A single literal matches when it is a prefix. -/
theorem run_literal_singleton (mem : Memory) (hv : st.Valid) (hst : st.good = true) (lit : AnyLiteral) :
    (literal mem [lit]).run st =
      if lit.text <+: st.text mem then some (some (st.removePrefix lit.size, ())) else some none := by
  rw [run_literalText (literal_reads [lit]) hv hst, firstPrefix_cons]
  split <;> rfl

/-- The shared state of the set is still the original one when the next literal is tried. -/
theorem runFirst_literalAlternatives (hv : st.Valid) (hst : st.good = true) (lits : List AnyLiteral) :
    (literalAlternatives mem lits).runFirst st = (literal mem lits).run st := by
  induction lits with
  | nil => rfl
  | cons lit lits ih =>
    have hlit := run_literal_singleton mem hv hst lit
    have hreads : (literal mem (lit :: lits)).Reads mem (literalText (lit :: lits) ()) :=
      literal_reads _
    have hset := run_literalText hreads hv hst
    rw [firstPrefix_cons] at hset
    show orElse (Attempt.map id (literal mem [lit]).run) (literalAlternatives mem lits).runFirst st = _
    rw [map_id]
    by_cases h : lit.text <+: st.text mem
    · rw [if_pos h] at hlit hset
      rw [orElse_some hlit, hset]; rfl
    · rw [if_neg h] at hlit hset
      rw [orElse_fail hlit, ih, hset, run_literalText (literal_reads lits) hv hst]

theorem literalAlternatives_keepNonNull (mem : Memory) :
    (lits : List AnyLiteral) → (literalAlternatives mem lits).KeepNonNull
  | [] => trivial
  | _ :: lits => ⟨literal_keepsNonNull mem _, literalAlternatives_keepNonNull mem lits⟩

/-! ### All of them -/

theorem matchers (hv : st.Valid) (hst : st.good = true) (hpre : pre.IsView) :
    Matchers mem st pre (pre.text mem) where
  startsWith := State.startsWith_iff hv hpre.valid
  startsWithArray := State.startsWithChars_iff hv _
  startsWithChar c hc := by rw [hc]; exact State.startsWithChar_iff
  requirePrefix := run_requirePrefix hv hst hpre
  testPrefix := run_testPrefix hv hst hpre
  literal lit hlit := by
    rw [run_literal_singleton mem hv hst, ← lit.length_text, hlit]
  rest := by
    rintro ⟨t, ht⟩
    rw [State.text_removePrefix, ← ht, List.drop_left]

theorem literalSet (hv : st.Valid) (hst : st.good = true) (lits : List AnyLiteral) :
    LiteralSet mem st lits where
  literal := run_literalText (literal_reads lits) hv hst
  literalMakes T h := run_literalText (literalMakes_reads T h lits) hv hst
  literalConstant _ constant := run_literalText (literalConstant_reads constant lits) hv hst
  either := by
    rw [(either_refines (literalAlternatives_keepNonNull mem lits)).run_eq hst,
      runFirst_literalAlternatives hv hst]
  first _ := firstPrefix_eq_some_iff
  none := firstPrefix_eq_none_iff

/-- All matchers of a prefix agree, and a set of literals is ordered choice over its members. -/
theorem prefix_matchers_agree (mem : Memory) (hv : st.Valid) (hst : st.good = true) :
    (∀ x pre, pre.IsView → pre.text mem = x → Matchers mem st pre x) ∧
      ∀ lits, LiteralSet mem st lits := by
  refine ⟨?_, literalSet hv hst⟩
  rintro x pre hpre rfl
  exact matchers hv hst hpre

/-- On the text `ab`, for its first character and two literals. -/
theorem prefix_matchers_agree_ab :
    let mem := Memory.ofText [ch 'a', ch 'b']
    (requirePrefix mem (State.ofLength 1)).run (State.ofLength 2) =
        some (some (⟨2, 3⟩, State.ofLength 1)) ∧
      (literal mem [.charLiteral (ch 'b'), .stringLiteral [ch 'a', ch 'b']]).run (State.ofLength 2) =
        some (some (⟨3, 3⟩, ())) := by
  intro mem
  have hv : (State.ofLength 2).Valid := by decide
  obtain ⟨hx, hlits⟩ := prefix_matchers_agree mem hv rfl
  refine ⟨?_, (hlits _).literal⟩
  rw [(hx _ (State.ofLength 1) ⟨by decide, by decide⟩ rfl).requirePrefix, if_pos]
  · rfl
  · exact ⟨[ch 'b'], rfl⟩

end Noam
