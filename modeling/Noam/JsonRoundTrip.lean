import Noam.JsonFormat

/-!
# Printing JSON values and parsing them back

What the formatter prints parses back to the value with arrays in the place of its empty objects, so that
the values without empty objects are those that printing and parsing keeps.
-/

namespace Noam
open GetResult ValueType Attempt Loop Framing Recognition

variable {N : Type} [Inhabited N] {mem : Memory} {st st' : State} {t t' : List UInt8} {v : JsonValue N}
variable {fmt : N → List UInt8} {fc : FromChars (double N)}

/-! ### `parse_json` -/

/-- The texts that `parse_json` takes, with the value and the rest. -/
abbrev DerivesJson (fc : FromChars (double N)) : Grammar UInt8 (JsonValue N) :=
  Trimmed (Derives (readNumber fc))

theorem recognizes_parseJson (mem : Memory) (hnum : NumberGrammar (readNumber fc)) :
    Recognizes (textCursor mem) Anywhere (parseJson mem fc).run (DerivesJson fc) := by
  have hvalue := recognizes_parseValueIn mem hnum JsonAlternative.mem_all
  exact recognizes_whitespaceEnclose hvalue fun t v t' h => (elementStart_of_derives hnum h).1

theorem parseJson_fails_nil (hv : st.Valid) (ht : st.text mem = []) :
    (parseJson mem fc).run st = some none := by
  have hblank : (whitespace mem).run st = some (some (st.removePrefix 0, ())) := by
    rw [whitespace, (zeroOrMoreChars_reads whitespaceChars).run_eq hv, ht]; rfl
  have hvalue : (parseValue mem fc).run (st.removePrefix 0) = some none := by
    rw [← parseValueIn_all]
    exact parseValueIn_fails_nil hv ht
  rw [parseJson, whitespaceEnclose, enclose_eq]
  refine ofAttempt_fails rfl ?_
  rw [bind_some hblank, bind_fail hvalue]

/-- `parse_json` takes a whole text that derives a value. -/
theorem parseJson_of_derives (hnum : NumberGrammar (readNumber fc)) (hst : st.Shows mem t)
    (h : DerivesJson fc t v []) :
    (parseJson mem fc).run st = some (some (st.removePrefix t.length, v)) := by
  obtain ⟨w, rfl, hrun⟩ := (recognizes_parseJson mem hnum).parses trivial hst h
  rw [List.append_nil]
  exact hrun

/-- The value that `parse_json` returns is the one that the text derives. -/
theorem parseJson_eq_some_iff (hnum : NumberGrammar (readNumber fc)) (hst : st.IsInput mem) :
    (∃ st', (parseJson mem fc).run st = some (some (st', v))) ↔
      ∃ t', DerivesJson fc (st.text mem) v t' := by
  have hrec := recognizes_parseJson mem hnum
  by_cases hgood : st.good = true
  · constructor
    · rintro ⟨st', hrun⟩
      obtain ⟨w, t', -, -, h⟩ := hrec.sound trivial (hst.shows hgood) hrun
      exact ⟨t', h⟩
    · rintro ⟨t', h⟩
      obtain ⟨w, -, hrun⟩ := hrec.parses trivial (hst.shows hgood) h
      exact ⟨_, hrun⟩
  · have hnil := hst.text_eq_nil hgood
    rw [parseJson_fails_nil hst.valid hnil, hnil]
    constructor
    · rintro ⟨st', hrun⟩; cases hrun
    · rintro ⟨t', a, a', t₁, ht, h, -⟩
      obtain ⟨-, rfl⟩ := List.append_eq_nil_iff.1 ht.symm
      exact absurd h (not_derives_nil hnum)

/-! ### Parsed values can be printed -/

omit [Inhabited N] in
theorem printable_of_grammar {num : Grammar UInt8 N} {a : JsonAlternative}
    (h : a.grammar num (fun _ v _ => Printable v) t v t') : Printable v := by
  cases a with
  | null => obtain ⟨-, rfl⟩ := h; exact .null
  | boolean => obtain ⟨b, -, rfl⟩ := h; exact .boolean b
  | number => obtain ⟨x, -, rfl⟩ := h; exact .number x
  | string => obtain ⟨raw, hraw, rfl⟩ := h; exact .string (rawView_iff.2 ⟨t, t', hraw⟩)
  | array =>
    obtain ⟨vs, ⟨t₁, t₂, -, hlist, -⟩, rfl⟩ := h
    exact .array (hlist.forall_mem fun _ _ _ h => h)
  | object =>
    obtain ⟨entries, ⟨t₁, t₂, -, hlist, -⟩, rfl⟩ := h
    have hentries : ∀ e ∈ entries, RawView e.1 ∧ Printable e.2 :=
      hlist.forall_mem fun t e t' ⟨t₁, t₂, hkey, _, h⟩ => ⟨rawView_iff.2 ⟨t, t₁, hkey⟩, h⟩
    exact .object (sorted_jsonObject entries) (fun e he => (hentries e (mem_of_mem_jsonObject he)).1)
      fun e he => (hentries e (mem_of_mem_jsonObject he)).2

theorem printable_of_derives (h : Derives (readNumber fc) t v t') : Printable v := by
  refine derives_induction (fun t x t' hx => ?_) (fun a t v t' h => printable_of_grammar h) h
  obtain ⟨n, -, rfl⟩ := hx
  rw [List.length_drop]
  omega

/-! ### The round trip -/

/-- On whatever state shows what is printed for `v`, `parse_json` returns `v` with nothing left. -/
def RoundTrips (fmt : N → List UInt8) (fc : FromChars (double N)) (v : JsonValue N) : Prop :=
  ∀ (mem : Memory) (st : State), st.Shows mem (formatValue fmt v) →
    ∃ st', (parseJson mem fc).run st = some (some (st', v)) ∧ st'.text mem = []

/-- Printing and parsing back puts arrays in the place of empty objects. -/
theorem parseJson_formatValue (hp : PrintsNumbers fmt fc) (h : Printable v)
    (hst : st.Shows mem (formatValue fmt v)) :
    ∃ st', (parseJson mem fc).run st = some (some (st', emptied v)) ∧ st'.text mem = [] := by
  obtain ⟨w, happ, hder⟩ := format_prints hp h Blank.none
  have htext : formatValue fmt v = w := congrArg FormatState.out (happ [])
  have hjson : DerivesJson fc w (emptied v) [] := by
    refine ⟨Blank.none, Blank.none, w, rfl, ?_, rfl⟩
    have hnil := hder [] (by simp [FollowsValue])
    rwa [List.append_nil] at hnil
  rw [htext] at hst
  refine ⟨_, parseJson_of_derives hp.grammar hst hjson, ?_⟩
  rw [State.text_removePrefix, hst.text, List.drop_length]

theorem roundTrips_iff (hp : PrintsNumbers fmt fc) (h : Printable v) :
    RoundTrips fmt fc v ↔ NoEmptyObject v := by
  rw [← emptied_eq_self_iff]
  constructor
  · intro hround
    have hst := State.shows_ofText (formatValue fmt v)
    obtain ⟨st₁, hrun₁, -⟩ := hround _ _ hst
    obtain ⟨st₂, hrun₂, -⟩ := parseJson_formatValue hp h hst
    rw [hrun₁, Option.some.injEq, Option.some.injEq, Prod.mk.injEq] at hrun₂
    exact hrun₂.2.symm
  · intro heq mem st hst
    obtain ⟨st', hrun, hnil⟩ := parseJson_formatValue hp h hst
    exact ⟨st', heq ▸ hrun, hnil⟩

/-- A value parses back from what is printed for it exactly when no object in it is empty, and what
`parse_json` returns for a text does so exactly when the text derives such a value. -/
theorem parseJson_formatValue_iff (hp : PrintsNumbers fmt fc) :
    (∀ v, Printable v → (RoundTrips fmt fc v ↔ NoEmptyObject v)) ∧
    ∀ (mem : Memory) (st : State), st.IsInput mem →
      ((∃ st' v, (parseJson mem fc).run st = some (some (st', v)) ∧ RoundTrips fmt fc v) ↔
        ∃ v t', DerivesJson fc (st.text mem) v t' ∧ NoEmptyObject v) := by
  refine ⟨fun v => roundTrips_iff hp, fun mem st hst => ?_⟩
  have hiff : ∀ v t', DerivesJson fc (st.text mem) v t' → (RoundTrips fmt fc v ↔ NoEmptyObject v) :=
    fun v t' ⟨_, _, _, _, h, _⟩ => roundTrips_iff hp (printable_of_derives h)
  constructor
  · rintro ⟨st', v, hrun, hround⟩
    obtain ⟨t', h⟩ := (parseJson_eq_some_iff hp.grammar hst).1 ⟨st', hrun⟩
    exact ⟨v, t', h, (hiff v t' h).1 hround⟩
  · rintro ⟨v, t', h, hno⟩
    obtain ⟨st', hrun⟩ := (parseJson_eq_some_iff hp.grammar hst).2 ⟨t', h⟩
    exact ⟨st', v, hrun, (hiff v t' h).2 hno⟩

/-! ### Decimal numbers -/

theorem printsNumbers_decimal : PrintsNumbers decimal digitsFromChars where
  grammar := numberTokens_digits.numberGrammar
  reads x t ht := by
    have hdigit : startsDigit t = false := by
      cases t with
      | nil => rfl
      | cons c t =>
        have hc : c ∈ [ch ',', ch '\n', ch ']', ch '}'] := ht c rfl
        simp only [List.mem_cons, List.not_mem_nil, or_false] at hc
        rcases hc with rfl | rfl | rfl | rfl <;> rfl
    have htake := takeWhile_decimal x hdigit
    have hdef : digitsFromChars.fromChars (decimal x ++ t) =
        if (decimal x ++ t).takeWhile isDigit ≠ [] then
          some (((decimal x ++ t).takeWhile isDigit).length,
            digitsValue ((decimal x ++ t).takeWhile isDigit)) else none := rfl
    rw [hdef, htake, if_pos (decimal_ne_nil x), digitsValue_decimal]

/-- `{"a": [1, []]}` is printed on three lines and parses back. -/
theorem parseJson_formatValue_iff_object :
    RoundTrips decimal digitsFromChars (.object [([ch 'a'], .array [.number 1, .array []])]) := by
  have hkey : RawView [ch 'a'] := by
    refine rawView_iff.2 ⟨[ch '"', ch 'a', ch '"'], [], rfl, ?_⟩
    exact .char (by decide) (by decide) (.nil _)
  have helems : ∀ v ∈ [JsonValue.number 1, .array []], Printable v ∧ NoEmptyObject v := by
    simp only [List.mem_cons, List.not_mem_nil, or_false]
    rintro v (rfl | rfl)
    · exact ⟨.number 1, .number 1⟩
    · exact ⟨.array (by simp), .array (by simp)⟩
  have harray := (parseJson_formatValue_iff printsNumbers_decimal).1
    (.object [([ch 'a'], .array [.number 1, .array []])]) (.object (by simp [StdMap.Sorted])
      (by simpa using hkey) (by simpa using Printable.array fun v hv => (helems v hv).1))
  exact harray.2 (.object (by simp) (by simpa using NoEmptyObject.array fun v hv => (helems v hv).2))

/-- `{}` is printed as `[]`, which parses back as an array. -/
theorem formatValue_empty_object : Printable (.object [] : JsonValue Nat) ∧
    PrintsNumbers decimal digitsFromChars ∧
    formatValue decimal (.object []) = [ch '[', ch ']'] ∧
    (parseJson (Memory.ofText [ch '{', ch '}']) digitsFromChars).run (State.ofLength 2) =
      some (some (⟨3, 3⟩, .object [])) ∧
    (parseJson (Memory.ofText [ch '[', ch ']']) digitsFromChars).run (State.ofLength 2) =
      some (some (⟨3, 3⟩, .array [])) ∧
    ¬ RoundTrips decimal digitsFromChars (.object []) := by
  have hnum : NumberGrammar (readNumber digitsFromChars) := numberTokens_digits.numberGrammar
  have hobject : DerivesJson digitsFromChars [ch '{', ch '}'] (.object []) [] :=
    ⟨Blank.none, Blank.none, _, rfl, .object ⟨Blank.none, rfl⟩ (.nil _) ⟨Blank.none, rfl⟩, rfl⟩
  have harray : DerivesJson digitsFromChars [ch '[', ch ']'] (.array []) [] :=
    ⟨Blank.none, Blank.none, _, rfl, .array ⟨Blank.none, rfl⟩ (.nil _) ⟨Blank.none, rfl⟩, rfl⟩
  have hrun := parseJson_of_derives hnum (State.shows_ofText [ch '[', ch ']']) harray
  refine ⟨.object .nil (by simp) (by simp), printsNumbers_decimal, rfl,
    parseJson_of_derives hnum (State.shows_ofText [ch '{', ch '}']) hobject, hrun, fun hround => ?_⟩
  obtain ⟨st', hrun', -⟩ := hround _ _ (State.shows_ofText [ch '[', ch ']'])
  rw [hrun] at hrun'
  cases hrun'

end Noam
