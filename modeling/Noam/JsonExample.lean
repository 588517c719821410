import Noam.JsonRoundTrip

/-!
# The example program (`json-example.cpp`)

`parse_n_print` prints the value that `parse_json` reads, or `failed`. It prints an empty object as an
array, so that what it prints need not derive the value it has read, but it prints the same text for it.
-/

namespace Noam
open GetResult ValueType Attempt Loop Recognition

variable {N : Type} [Inhabited N] {mem : Memory} {st : State} {t t' : List UInt8} {v : JsonValue N}
variable {fmt : N → List UInt8} {fc : FromChars (double N)}

def failedText : List UInt8 := [ch 'f', ch 'a', ch 'i', ch 'l', ch 'e', ch 'd']

/-- What `parse_n_print(sv)` prints. -/
def parseNPrint (mem : Memory) (fmt : N → List UInt8) (fc : FromChars (double N)) (sv : State) :
    Option (List UInt8) :=
  (parseJson mem fc).ifParse sv (fun _ v => return formatValue fmt v ++ [ch '\n']) (return failedText)

/-! ### Empty objects are printed as arrays -/

section
omit [Inhabited N]

theorem formatArray_map {f : JsonValue N → JsonValue N} {vs : List (JsonValue N)}
    (h : ∀ v ∈ vs, ∀ s, format fmt (f v) s = format fmt v s) (s : FormatState) :
    formatArray fmt (vs.map f) s = formatArray fmt vs s := by
  induction vs generalizing s with
  | nil => rfl
  | cons v vs ih =>
    obtain ⟨hv, hvs⟩ := List.forall_mem_cons.1 h
    simp only [List.map_cons, formatArray, hv, ih hvs, List.isEmpty_map]

theorem formatObject_map {f : JsonValue N → JsonValue N} {entries : List (List UInt8 × JsonValue N)}
    (h : ∀ e ∈ entries, ∀ s, format fmt (f e.2) s = format fmt e.2 s) (s : FormatState) :
    formatObject fmt (entries.map fun e => (e.1, f e.2)) s = formatObject fmt entries s := by
  induction entries generalizing s with
  | nil => rfl
  | cons e entries ih =>
    obtain ⟨he, hentries⟩ := List.forall_mem_cons.1 h
    simp only [List.map_cons, formatObject, he, ih hentries, List.isEmpty_map]

theorem format_emptied (v : JsonValue N) (s : FormatState) : format fmt (emptied v) s = format fmt v s := by
  induction v using JsonValue.induction generalizing s with
  | null => rfl
  | string sv => rfl
  | number x => rfl
  | boolean b => rfl
  | object entries ih =>
    by_cases hne : entries = []
    · subst hne
      rfl
    · rw [emptied_object hne]
      simp only [format, List.isEmpty_map, formatObject_map ih]
  | array vs ih =>
    rw [emptied_array]
    simp only [format, List.isEmpty_map, formatArray_map ih]

end

/-! ### What is printed -/

theorem parseNPrint_of_derives (hnum : NumberGrammar (readNumber fc)) (hst : st.IsInput mem)
    (h : DerivesJson fc (st.text mem) v t') :
    parseNPrint mem fmt fc st = some (formatValue fmt v ++ [ch '\n']) := by
  obtain ⟨st', hrun⟩ := (parseJson_eq_some_iff hnum hst).2 ⟨t', h⟩
  exact Parser.ifParse_some hrun

theorem parseNPrint_failed (hnum : NumberGrammar (readNumber fc)) (hst : st.IsInput mem)
    (hno : ∀ v t', ¬ DerivesJson fc (st.text mem) v t') : parseNPrint mem fmt fc st = some failedText := by
  refine Parser.ifParse_fail ?_
  by_cases hgood : st.good = true
  · exact (recognizes_parseJson mem hnum).fails trivial (hst.shows hgood) hno
  · exact parseJson_fails_nil hst.valid (hst.text_eq_nil hgood)

theorem not_derivesJson_failed (hnum : NumberGrammar (readNumber fc)) :
    ¬ DerivesJson fc failedText v t' := by
  rintro ⟨a, a', t₁, ht, hv, -⟩
  have hstart := (elementStart_of_derives hnum hv).1
  obtain rfl : failedText = t₁ := eq_of_blank_append (a := Blank.none) rfl hstart ht
  obtain ⟨alternative, hv⟩ := derives_iff.1 hv
  obtain ⟨c, u, htext, hc⟩ := starts_of_grammar hnum hv
  obtain rfl : ch 'f' = c := (List.cons.inj htext).1
  cases alternative with
  | boolean =>
    obtain ⟨b, hb, -⟩ := hv
    cases b <;> cases hb
  | _ => revert hc; decide

/-- On every input `parse_n_print` prints a text for which it prints the same text. -/
theorem parseNPrint_again (hp : PrintsNumbers fmt fc) (hst : st.IsInput mem) :
    ∃ out, parseNPrint mem fmt fc st = some out ∧ ∀ (mem' : Memory) (st' : State),
      st'.Shows mem' out → parseNPrint mem' fmt fc st' = some out := by
  have hinput : ∀ {mem' : Memory} {st' : State} {out}, st'.Shows mem' out → st'.IsInput mem' :=
    fun h => ⟨h.valid, fun _ => h.good⟩
  by_cases h : ∃ v t', DerivesJson fc (st.text mem) v t'
  · obtain ⟨v, t', hv⟩ := h
    have ⟨_, _, _, _, hder, _⟩ := hv
    obtain ⟨w, happ, hprints⟩ := format_prints hp (printable_of_derives hder) Blank.none
    have htext : formatValue fmt v = w := congrArg FormatState.out (happ [])
    have hjson : DerivesJson fc (formatValue fmt v ++ [ch '\n']) (emptied v) [] := by
      rw [htext]
      exact ⟨Blank.none, Blank.single (ch '\n') (by decide), _, rfl,
        hprints _ (by simp [FollowsValue]), rfl⟩
    refine ⟨_, parseNPrint_of_derives hp.grammar hst hv, fun mem' st' hst' => ?_⟩
    rw [← hst'.text] at hjson
    rw [parseNPrint_of_derives hp.grammar (hinput hst') hjson, formatValue, format_emptied]
    rfl
  · push Not at h
    refine ⟨failedText, parseNPrint_failed hp.grammar hst h, fun mem' st' hst' => ?_⟩
    refine parseNPrint_failed hp.grammar (hinput hst') fun v t' hv => ?_
    rw [hst'.text] at hv
    exact not_derivesJson_failed hp.grammar hv

/-- `{"a":[7,{}]}` is printed over three lines, with an empty array for the empty object, and what is
printed as itself. -/
theorem parseNPrint_again_object :
    let text := [ch '{', ch '"', ch 'a', ch '"', ch ':', ch '[', ch '7', ch ',', ch '{', ch '}', ch ']', ch '}']
    let out := [ch '{', ch '\n', ch ' ', ch ' ', ch ' ', ch ' ', ch '"', ch 'a', ch '"', ch ':', ch ' ', ch '[',
      ch '7', ch ',', ch ' ', ch '[', ch ']', ch ']', ch '\n', ch '}', ch '\n']
    parseNPrint (Memory.ofText text) decimal digitsFromChars (State.ofLength 12) = some out ∧
      parseNPrint (Memory.ofText out) decimal digitsFromChars (State.ofLength 21) = some out := by
  intro text out
  have hst : (State.ofLength 12).Shows (Memory.ofText text) text := State.shows_ofText text
  have hinput : (State.ofLength 12).IsInput (Memory.ofText text) := ⟨hst.valid, fun _ => hst.good⟩
  let rest := [ch ',', ch '{', ch '}', ch ']', ch '}']
  have hseven : readNumber digitsFromChars (ch '7' :: rest) 7 rest := readNumber_digit (by decide) (by decide) _
  have hsep : Separates (.charLiteral (ch ',')) rest () [ch '{', ch '}', ch ']', ch '}'] :=
    ⟨Blank.none, Blank.none, rfl⟩
  have hempty : Derives (readNumber digitsFromChars) [ch '{', ch '}', ch ']', ch '}'] (.object (jsonObject []))
      [ch ']', ch '}'] := .object ⟨Blank.none, rfl⟩ (.nil _) ⟨Blank.none, rfl⟩
  have harray : Derives (readNumber digitsFromChars) (ch '[' :: ch '7' :: rest) (.array [.number 7, .object []])
      [ch '}'] :=
    .array ⟨Blank.none, rfl⟩ (.cons (.number hseven) (.cons hsep hempty (.nil _))) ⟨Blank.none, rfl⟩
  have hentry : DerivesEntry (readNumber digitsFromChars) text.tail ([ch 'a'], .array [.number 7, .object []])
      [ch '}'] := .mk (stringToken_char (by decide) (by decide) _) ⟨Blank.none, Blank.none, rfl⟩ harray
  let v : JsonValue Nat := .object (jsonObject [([ch 'a'], .array [.number 7, .object []])])
  have hvalue : Derives (readNumber digitsFromChars) text v [] :=
    .object ⟨Blank.none, rfl⟩ (.cons hentry (.nil _)) ⟨Blank.none, rfl⟩
  have hjson : DerivesJson digitsFromChars ((State.ofLength 12).text (Memory.ofText text)) v [] := by
    rw [hst.text]
    exact ⟨Blank.none, Blank.none, _, rfl, hvalue, rfl⟩
  have hprinted : formatValue decimal v ++ [ch '\n'] = out := by
    have hdecimal : decimal 7 = [ch '7'] := by norm_num [decimal, digitChar]; rfl
    have hv : v = .object [([ch 'a'], .array [.number 7, .object []])] := rfl
    simp [hv, out, formatValue, format, formatArray, formatObject, hdecimal, FormatState.formatTo,
      FormatState.indent, FormatState.dedent]
  have hprint : parseNPrint (Memory.ofText text) decimal digitsFromChars (State.ofLength 12) = some out := by
    rw [parseNPrint_of_derives printsNumbers_decimal.grammar hinput hjson, hprinted]
  obtain ⟨out', hout, hagain⟩ := parseNPrint_again printsNumbers_decimal hinput
  have hsame : out' = out := Option.some.inj (hout.symm.trans hprint)
  rw [hsame] at hagain
  exact ⟨hprint, hagain _ _ (State.shows_ofText out)⟩

end Noam
