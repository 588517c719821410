import Noam.JsonGrammar

/-!
# What `parse_value` accepts

The grammar takes any number token at the start of a text, `std::from_chars` the longest one. Within an
array or an object there is no difference: a shorter token would be followed by a character that no
number token contains.
-/

namespace Noam
open GetResult ValueType Attempt Loop Framing Recognition

variable {N : Type} {mem : Memory} {st : State} {t t' t'' : List UInt8} {v v' : JsonValue N} {n : Nat}

/-! ### Number tokens -/

/-- What can follow a value in an array or an object. -/
def delimiters : List UInt8 := whitespaceChars ++ [ch ',', ch ']', ch '}']

def StartsDelimiter (t : List UInt8) : Prop := ∃ c u, t = c :: u ∧ c ∈ delimiters

/-- A number token. -/
def AnyNumber (Token : List UInt8 → N → Prop) : Grammar UInt8 N := fun t x t' =>
  ∃ w, t = w ++ t' ∧ Token w x

/-- The longest number token. -/
def LongestNumber (Token : List UInt8 → N → Prop) : Grammar UInt8 N := fun t x t' =>
  ∃ w, t = w ++ t' ∧ Token w x ∧ ∀ w' y, w' <+: t → Token w' y → w'.length ≤ w.length

/-- `parse_double` reads the longest number token at the start of a text. Number tokens start as numbers
do, which tells them from `null`, `true` and `false`, and contain no delimiter. -/
structure NumberTokens [Inhabited N] (Token : List UInt8 → N → Prop) (fc : FromChars (double N)) :
    Prop where
  longest : ∀ {text n x}, fc.fromChars text = some (n, x) ↔
    n ≤ text.length ∧ Token (text.take n) x ∧ ∀ m y, m ≤ text.length → Token (text.take m) y → m ≤ n
  start : ∀ {w x}, Token w x → ∃ c u, w = c :: u ∧ c ∈ numberStarts
  not_literal : ∀ {w x}, Token w x →
    ∀ lit ∈ [nullLiteral.text, booleanLiteral true, booleanLiteral false], ¬ lit <+: w ∧ ¬ w <+: lit
  no_delimiter : ∀ {w x}, Token w x → ∀ c ∈ w, c ∉ delimiters

namespace NumberTokens
variable [Inhabited N] {Token : List UInt8 → N → Prop} {fc : FromChars (double N)} {x : N}
variable (h : NumberTokens Token fc)
include h

theorem longestNumber_eq : LongestNumber Token = readNumber fc := by
  funext t x t'
  refine propext ⟨?_, ?_⟩
  · rintro ⟨w, rfl, hw, hlongest⟩
    refine ⟨w.length, h.longest.2 ⟨?_, by rwa [List.take_left], fun m y hm hy => ?_⟩, by
      rw [List.drop_left]⟩
    · rw [List.length_append]; exact Nat.le_add_right _ _
    · have hle := hlongest _ y (List.take_prefix m _) hy
      rwa [List.length_take_of_le hm] at hle
  · rintro ⟨n, hn, rfl⟩
    obtain ⟨hle, hw, hlongest⟩ := h.longest.1 hn
    refine ⟨t.take n, (List.take_append_drop n t).symm, hw, fun w' y hp hy => ?_⟩
    rw [List.length_take_of_le hle]
    refine hlongest _ y hp.length_le ?_
    rwa [← List.prefix_iff_eq_take.1 hp]

theorem numberGrammar : NumberGrammar (readNumber fc) where
  start := by
    rintro t x t' ⟨n, hn, rfl⟩
    obtain ⟨c, u, hc, hstart⟩ := h.start (h.longest.1 hn).2.1
    exact ⟨c, u ++ t.drop n, by rw [← List.cons_append, ← hc, List.take_append_drop], hstart⟩
  not_null := by
    rintro t x t' ⟨n, hn, rfl⟩ hp
    obtain ⟨hno, hno'⟩ := h.not_literal (h.longest.1 hn).2.1 nullLiteral.text List.mem_cons_self
    exact (List.prefix_or_prefix_of_prefix hp (List.take_prefix n t)).elim hno hno'

/-- A text that starts with a number token starts with a longest one. -/
theorem exists_longest (hn : AnyNumber Token t x t') : ∃ y t'', LongestNumber Token t y t'' := by
  classical
  obtain ⟨w, rfl, hw⟩ := hn
  have hw' : ∃ y, Token ((w ++ t').take w.length) y := ⟨x, by rwa [List.take_left]⟩
  have hle : w.length ≤ (w ++ t').length := by rw [List.length_append]; omega
  obtain ⟨y, hy⟩ := Nat.findGreatest_spec (P := fun m => ∃ y, Token ((w ++ t').take m) y) hle hw'
  rw [h.longestNumber_eq]
  refine ⟨y, _, _, h.longest.2 ⟨Nat.findGreatest_le _, hy, fun m z hm hz => ?_⟩, rfl⟩
  exact Nat.le_findGreatest hm ⟨z, hz⟩

/-- A token that a delimiter follows is the longest one. -/
theorem longest_of_delimiter (hn : AnyNumber Token t x t') (hd : StartsDelimiter t') :
    LongestNumber Token t x t' := by
  obtain ⟨w, rfl, hw⟩ := hn
  obtain ⟨c, u, rfl, hc⟩ := hd
  refine ⟨w, rfl, hw, fun w' y hp hy => ?_⟩
  by_contra hlt
  have hp' : w ++ [c] <+: w ++ c :: u := ⟨u, by simp⟩
  have hsub : w ++ [c] <+: w' := by
    refine List.prefix_of_prefix_length_le hp' hp ?_
    rw [List.length_append, List.length_singleton]
    omega
  exact h.no_delimiter hy c (hsub.subset (by simp)) hc

end NumberTokens

/-! ### Any number tokens -/

section
variable {num num' : Grammar UInt8 N} {P : List UInt8 → Prop}

theorem startsDelimiter_blank (a : Blank) {c : UInt8} (hc : c ∈ delimiters) (t : List UInt8) :
    StartsDelimiter (a.1 ++ c :: t) := by
  obtain ⟨_ | ⟨d, a⟩, ha⟩ := a
  · exact ⟨c, t, rfl, hc⟩
  · exact ⟨d, _, rfl, List.mem_append_left _ (ha d List.mem_cons_self)⟩

theorem startsDelimiter_of_separates {u : Unit} (h : Separates (.charLiteral (ch ',')) t u t') :
    StartsDelimiter t := by
  obtain ⟨a, b, rfl⟩ := h
  exact startsDelimiter_blank a (by decide) _

theorem length_of_separates {lit : AnyLiteral} {u : Unit} (h : Separates lit t u t') :
    t'.length ≤ t.length := by
  obtain ⟨a, b, rfl⟩ := h
  simp only [List.length_append]
  omega

theorem length_of_stringToken {raw : List UInt8} (h : StringToken t raw t') : t'.length < t.length := by
  rw [h.text_eq]
  simp only [List.length_append, List.length_singleton]
  omega

/-- Brackets keep what their elements have, with a delimiter behind each of them. -/
theorem bracketed_imp {β : Type} {opening closing : UInt8} {G G' : Grammar UInt8 β} {bs : List β}
    (hclosing : closing ∈ delimiters) (hP : ∀ t, StartsDelimiter t → P t)
    (hG : ∀ t b t', t.length < n → G t b t' → t'.length ≤ t.length ∧ (P t' → G' t b t'))
    (hn : t.length < n + 1)
    (h : Bracketed (.charLiteral opening) (.charLiteral (ch ',')) (.charLiteral closing) G t bs t') :
    t'.length ≤ t.length ∧
      Bracketed (.charLiteral opening) (.charLiteral (ch ',')) (.charLiteral closing) G' t bs t' := by
  obtain ⟨t₁, t₂, ⟨a, rfl⟩, hlist, ⟨b, rfl⟩⟩ := h
  have hlen : t₁.length < n := by
    have hone : (AnyLiteral.charLiteral opening).text.length = 1 := rfl
    simp only [List.length_append, hone] at hn
    omega
  obtain ⟨hle, himp⟩ := hlist.imp_elem (P := P)
    (fun t u t' hs => ⟨length_of_separates hs, hP t (startsDelimiter_of_separates hs)⟩) hG hlen
  refine ⟨?_, t₁, _, ⟨a, rfl⟩, himp (hP _ (startsDelimiter_blank b hclosing t')), ⟨b, rfl⟩⟩
  simp only [List.length_append] at hle ⊢
  omega

theorem entryOf_imp {G G' : Grammar UInt8 (JsonValue N)} {e : List UInt8 × JsonValue N}
    (hG : ∀ t v t', t.length < n → G t v t' → t'.length ≤ t.length ∧ (P t' → G' t v t'))
    (hn : t.length < n) (h : EntryOf G t e t') : t'.length ≤ t.length ∧ (P t' → EntryOf G' t e t') := by
  obtain ⟨t₁, t₂, hkey, hsep, hg⟩ := h
  have hle₁ := length_of_stringToken hkey
  have hle₂ := length_of_separates hsep
  obtain ⟨hle, himp⟩ := hG _ _ _ (by omega) hg
  exact ⟨by omega, fun hP => ⟨t₁, t₂, hkey, hsep, himp hP⟩⟩

/-- Values with other numbers, when a number that `P` holds behind may be exchanged. -/
theorem grammar_imp {G G' : Grammar UInt8 (JsonValue N)} {a : JsonAlternative}
    (hnum : ∀ t x t', num t x t' → t'.length ≤ t.length ∧ (P t' → num' t x t'))
    (hP : ∀ t, StartsDelimiter t → P t)
    (hG : ∀ t v t', t.length < n → G t v t' → t'.length ≤ t.length ∧ (P t' → G' t v t'))
    (hn : t.length < n + 1) (h : a.grammar num G t v t') :
    t'.length ≤ t.length ∧ ((a = .number → P t') → a.grammar num' G' t v t') := by
  cases a with
  | null =>
    obtain ⟨rfl, rfl⟩ := h
    exact ⟨by rw [List.length_append]; omega, fun _ => ⟨rfl, rfl⟩⟩
  | boolean =>
    obtain ⟨b, rfl, rfl⟩ := h
    exact ⟨by rw [List.length_append]; omega, fun _ => ⟨b, rfl, rfl⟩⟩
  | number =>
    obtain ⟨x, hx, rfl⟩ := h
    obtain ⟨hle, himp⟩ := hnum _ _ _ hx
    exact ⟨hle, fun hP' => ⟨x, himp (hP' rfl), rfl⟩⟩
  | string =>
    obtain ⟨raw, hraw, rfl⟩ := h
    exact ⟨(length_of_stringToken hraw).le, fun _ => ⟨raw, hraw, rfl⟩⟩
  | array =>
    obtain ⟨vs, hb, rfl⟩ := h
    obtain ⟨hle, hb'⟩ := bracketed_imp (by decide) hP hG hn hb
    exact ⟨hle, fun _ => ⟨vs, hb', rfl⟩⟩
  | object =>
    obtain ⟨es, hb, rfl⟩ := h
    obtain ⟨hle, hb'⟩ := bracketed_imp (by decide) hP (fun t e t' => entryOf_imp hG) hn hb
    exact ⟨hle, fun _ => ⟨es, hb', rfl⟩⟩

/-- `Derives` is the least grammar that has what the alternatives have over it. -/
theorem derives_least {G : Grammar UInt8 (JsonValue N)}
    (hnum : ∀ t x t', num t x t' → t'.length ≤ t.length ∧ (P t' → num' t x t'))
    (hP : ∀ t, StartsDelimiter t → P t)
    (hG : ∀ (a : JsonAlternative) t v t', a.grammar num' G t v t' → G t v t')
    (h : Derives num t v t') : t'.length ≤ t.length ∧ (P t' → G t v t') := by
  have hwithin : ∀ n t v t', t.length < n → Derives num t v t' →
      t'.length ≤ t.length ∧ (P t' → G t v t') := by
    intro n
    induction n with
    | zero => exact fun t v t' hn => absurd hn (Nat.not_lt_zero _)
    | succ n ih =>
      intro t v t' hn h
      obtain ⟨a, ha⟩ := derives_iff.1 h
      obtain ⟨hle, himp⟩ := grammar_imp hnum hP ih hn ha
      exact ⟨hle, fun hP' => hG a t v t' (himp fun _ => hP')⟩
  exact hwithin _ t v t' (Nat.lt_succ_self _) h

theorem derives_imp (hnum : ∀ t x t', num t x t' → t'.length ≤ t.length ∧ (P t' → num' t x t'))
    (hP : ∀ t, StartsDelimiter t → P t) (h : Derives num t v t') :
    t'.length ≤ t.length ∧ (P t' → Derives num' t v t') :=
  derives_least hnum hP (fun a _ _ _ ha => derives_iff.2 ⟨a, ha⟩) h

/-- What holds of every value whose parts it holds of. -/
theorem derives_induction {Q : JsonValue N → Prop}
    (hnum : ∀ t x t', num t x t' → t'.length ≤ t.length)
    (hQ : ∀ (a : JsonAlternative) t v t', a.grammar num (fun _ v _ => Q v) t v t' → Q v)
    (h : Derives num t v t') : Q v :=
  (derives_least (P := fun _ => True) (G := fun _ v _ => Q v)
    (fun t x t' hx => ⟨hnum t x t' hx, fun _ => hx⟩) (fun _ _ => trivial) hQ h).2 trivial

end

/-- Something derives with any number tokens where something derives with the longest ones. -/
theorem exists_derives_iff [Inhabited N] {Token : List UInt8 → N → Prop} {fc : FromChars (double N)}
    (h : NumberTokens Token fc) : (∃ v t', Derives (AnyNumber Token) t v t') ↔
      ∃ v t', Derives (LongestNumber Token) t v t' := by
  have hany : ∀ t x t', AnyNumber Token t x t' → t'.length ≤ t.length := by
    rintro t x t' ⟨w, rfl, -⟩
    rw [List.length_append]; omega
  constructor
  · rintro ⟨v, t', hd⟩
    have hnum : ∀ t x t', AnyNumber Token t x t' →
        t'.length ≤ t.length ∧ (StartsDelimiter t' → LongestNumber Token t x t') :=
      fun t x t' hx => ⟨hany t x t' hx, h.longest_of_delimiter hx⟩
    obtain ⟨a, ha⟩ := derives_iff.1 hd
    -- inside of brackets a delimiter follows every number, so that only a value that is a number
    -- itself may have to be exchanged for a longer one
    by_cases hnumber : a = .number
    · subst hnumber
      obtain ⟨x, hx, -⟩ := ha
      obtain ⟨y, t'', hy⟩ := h.exists_longest hx
      exact ⟨.number y, t'', .number hy⟩
    · obtain ⟨-, himp⟩ := grammar_imp hnum (fun _ hd => hd)
        (fun t v t' _ hd => derives_imp hnum (fun _ hd => hd) hd) (Nat.lt_succ_self _) ha
      exact ⟨v, t', derives_iff.2 ⟨a, himp fun hn => absurd hn hnumber⟩⟩
  · rintro ⟨v, t', hd⟩
    have hnum : ∀ t x t', LongestNumber Token t x t' →
        t'.length ≤ t.length ∧ (True → AnyNumber Token t x t') := by
      rintro t x t' ⟨w, ht, hw, -⟩
      exact ⟨hany t x t' ⟨w, ht, hw⟩, fun _ => ⟨w, ht, hw⟩⟩
    exact ⟨v, t', (derives_imp hnum (fun _ _ => trivial) hd).2 trivial⟩

/-! ### The null state -/

/-- A valid view, which is null only when it is empty. -/
structure State.IsInput (st : State) (mem : Memory) : Prop where
  valid : st.Valid
  good : st.text mem ≠ [] → st.good = true

theorem State.IsInput.shows (h : st.IsInput mem) (hgood : st.good = true) :
    st.Shows mem (st.text mem) := ⟨h.valid, hgood, rfl⟩

theorem State.IsInput.text_eq_nil (h : st.IsInput mem) (hgood : ¬ st.good = true) :
    st.text mem = [] := by
  by_contra hne
  exact hgood (h.good hne)

theorem ofAttempt_fails {V : ValueType} {A : Attempt State V} {g : Bool} (hg : g = false)
    (h : A st = some none) : (Parser.ofAttempt g A).run st = some none := by
  subst hg
  rw [run_ofAttempt, h]; rfl

theorem bracketed_fails_nil {V : ValueType} {X : Type} {c : UInt8} {sep closing : AnyLiteral}
    {A : Attempt State V} {push : X → V → X} {x : X} (hv : st.Valid) (ht : st.text mem = []) :
    bracketed mem (.charLiteral c) sep closing A push x st = some none := by
  have hliteral : (literal mem [.charLiteral c]).run st = some none := by
    rw [(literal_reads [.charLiteral c]).run_eq hv, ht]; rfl
  refine bind_fail ?_
  rw [openParser, match_eq]
  exact ofAttempt_fails rfl (bind_fail (bind_fail hliteral))

section
variable [Inhabited N] {fc : FromChars (double N)} {order : List JsonAlternative}

theorem attempt_fails_nil (value : Parser false (jsonValue N)) (hv : st.Valid) (ht : st.text mem = [])
    (a : JsonAlternative) : a.attempt mem fc value st = some none := by
  have hconv : ∀ {V : ValueType} {p : Parser false V} (conv : Conversion V (jsonValue N)),
      p.run st = some none → (Alternatives.cons p conv .nil).runFirst st = some none := by
    intro V p conv hrun
    rw [runFirst_singleton, map_apply, hrun]; rfl
  have hleaf : ∀ {V : ValueType} {p : Parser false V} {F : OnText V}, p.Reads mem F →
      F [] = some none → p.run st = some none := by
    intro V p F hp hF
    rw [hp.run_eq hv, ht, hF]; rfl
  unfold JsonAlternative.attempt
  cases a with
  | null => exact hconv _ (hleaf (literalConstant_reads _ _) rfl)
  | boolean => exact hconv _ (hleaf boolParser_reads rfl)
  | number =>
    refine hconv _ (hleaf (charconv_reads fc) ?_)
    rcases hn : fc.fromChars [] with _ | ⟨n, x⟩
    · rfl
    · have hle := fc.read_le hn
      rw [List.length_nil] at hle
      omega
  | string => exact hconv _ (hleaf (viewParser_reads _ _ _) rfl)
  | array =>
    refine hconv _ ?_
    rw [sequenceCommas, sequenceEnclosed_eq]
    exact ofAttempt_fails rfl (bracketed_fails_nil hv ht)
  | object =>
    refine hconv _ ?_
    rw [parseMapBraces, parseMap_eq]
    exact ofAttempt_fails rfl (bracketed_fails_nil hv ht)

theorem firstOf_fails {σ β : Type} {As : List (Attempt σ β)} {s : σ} (h : ∀ A ∈ As, A s = some none) :
    firstOf As s = some none := by
  induction As with
  | nil => rfl
  | cons A As ih =>
    rw [firstOf, orElse_fail (h A List.mem_cons_self)]
    exact ih fun B hB => h B (List.mem_cons_of_mem A hB)

theorem parseValueIn_fails_nil (hv : st.Valid) (ht : st.text mem = []) :
    (parseValueIn mem fc order).run st = some none := by
  have hgood : eitherGood (order.map fun _ => false) = false := by
    rw [eitherGood_eq]; simp
  have hfunc : ∀ value, (valueOfIn mem fc order value).run st = some none := by
    intro value
    rw [valueOfIn, run_either, runFirst_alternativesIn]
    refine ofAttempt_fails hgood (firstOf_fails fun A hA => ?_)
    obtain ⟨a, -, rfl⟩ := List.mem_map.1 hA
    exact attempt_fails_nil value hv ht a
  rw [parseValueIn, ← recurse_eq, run_recurse, search_eq_some_iff]
  refine ⟨1, ?_, fun k hk => ?_⟩
  · rw [recurseConstantWithin_succ, run_toFallible, hfunc]; rfl
  · obtain rfl : k = 0 := by omega
    rfl

end

/-! ### The outcome -/

theorem not_derives_nil {num : Grammar UInt8 N} (hnum : NumberGrammar num) :
    ¬ Derives num [] v t' := by
  intro h
  obtain ⟨a, ha⟩ := derives_iff.1 h
  obtain ⟨c, u, hnil, -⟩ := starts_of_grammar hnum ha
  cases hnil

/-- In every order of its alternatives `parse_value` succeeds where something derives, with the value
and the rest that derive with the longest numbers, and fails elsewhere. -/
structure Accepts [Inhabited N] (Token : List UInt8 → N → Prop) (mem : Memory)
    (p : Parser false (jsonValue N)) (st : State) : Prop where
  succeeds : (∃ st' v, p.run st = some (some (st', v))) ↔
    ∃ v t', Derives (AnyNumber Token) (st.text mem) v t'
  outcome : ∀ st' v, p.run st = some (some (st', v)) ↔
    st'.Suffix st ∧ Derives (LongestNumber Token) (st.text mem) v (st'.text mem)
  fails : (∀ v t', ¬ Derives (AnyNumber Token) (st.text mem) v t') → p.run st = some none

theorem eq_of_suffix {s s' : State} (h : s.Suffix st) (h' : s'.Suffix st)
    (ht : s.text mem = s'.text mem) : s = s' := by
  have hlen := congrArg List.length ht
  rw [State.length_text, State.length_text] at hlen
  have hv := h.valid
  have hv' := h'.valid
  have hend := h.end_eq
  have hend' := h'.end_eq
  unfold State.Valid at hv hv'
  cases s; cases s'
  simp only [State.mk.injEq] at *
  omega

section
variable [Inhabited N] {Token : List UInt8 → N → Prop} {fc : FromChars (double N)}
variable {p q : Parser false (jsonValue N)}

theorem accepts_of_recognizes (h : NumberTokens Token fc) (hshow : st.Shows mem (st.text mem))
    (hp : Recognizes (textCursor mem) Anywhere p.run (Derives (readNumber fc))) :
    Accepts Token mem p st := by
  have hany := exists_derives_iff h (t := st.text mem)
  have htake : ∀ {w t : List UInt8}, st.text mem = w ++ t → (st.removePrefix w.length).Suffix st ∧
      (st.removePrefix w.length).text mem = t := by
    intro w t ht
    refine ⟨State.suffix_removePrefix (by rw [ht, List.length_append]; omega) hshow.valid, ?_⟩
    rw [State.text_removePrefix, ht, List.drop_left]
  rw [h.longestNumber_eq] at hany
  refine ⟨?_, fun st' v => ?_, fun hno => ?_⟩
  · rw [hany]
    constructor
    · rintro ⟨st', v, hr⟩
      obtain ⟨w, t', -, -, hd⟩ := hp.sound trivial hshow hr
      exact ⟨v, t', hd⟩
    · rintro ⟨v, t', hd⟩
      obtain ⟨w, -, hr⟩ := hp.parses trivial hshow hd
      exact ⟨_, v, hr⟩
  · rw [h.longestNumber_eq]
    constructor
    · intro hr
      obtain ⟨w, t', ht, rfl, hd⟩ := hp.sound trivial hshow hr
      obtain ⟨hs, htext⟩ := htake ht
      exact ⟨hs, htext ▸ hd⟩
    · rintro ⟨hs, hd⟩
      obtain ⟨w, ht, hr⟩ := hp.parses trivial hshow hd
      obtain ⟨hs', htext⟩ := htake ht
      -- two suffixes of `st` with one text are the same state
      rw [eq_of_suffix hs hs' htext.symm]
      exact hr
  · refine hp.fails trivial hshow fun v t' hd => ?_
    obtain ⟨v', t'', hd'⟩ := hany.2 ⟨v, t', hd⟩
    exact hno v' t'' hd'

theorem accepts_parseValueIn (h : NumberTokens Token fc) (hst : st.IsInput mem)
    {order : List JsonAlternative} (horder : ∀ a, a ∈ order) :
    Accepts Token mem (parseValueIn mem fc order) st := by
  by_cases hgood : st.good = true
  · exact accepts_of_recognizes h (hst.shows hgood)
      (recognizes_parseValueIn mem h.numberGrammar horder)
  · -- the null view is empty, and nothing derives from the empty text
    have hnil := hst.text_eq_nil hgood
    have hrun : (parseValueIn mem fc order).run st = some none := parseValueIn_fails_nil hst.valid hnil
    have hlongest : ∀ v t', ¬ Derives (LongestNumber Token) [] v t' := by
      rw [h.longestNumber_eq]
      exact fun v t' => not_derives_nil h.numberGrammar
    have hany : ¬ ∃ v t', Derives (AnyNumber Token) [] v t' := by
      rw [exists_derives_iff h]
      exact fun ⟨v, t', hd⟩ => hlongest v t' hd
    refine ⟨?_, fun st' v => ?_, fun _ => hrun⟩
    · rw [hnil, hrun]
      exact ⟨fun ⟨_, _, hr⟩ => (by cases hr), fun hd => absurd hd hany⟩
    · rw [hnil, hrun]
      exact ⟨fun hr => (by cases hr), fun hd => absurd hd.2 (hlongest v _)⟩

theorem Accepts.run_eq (hp : Accepts Token mem p st) (hq : Accepts Token mem q st) :
    p.run st = q.run st := by
  by_cases hd : ∃ v t', Derives (AnyNumber Token) (st.text mem) v t'
  · obtain ⟨st', v, hr⟩ := hp.succeeds.2 hd
    rw [hr, (hq.outcome st' v).2 ((hp.outcome st' v).1 hr)]
  · rw [hp.fails fun v t' h => hd ⟨v, t', h⟩, hq.fails fun v t' h => hd ⟨v, t', h⟩]

/-- `parse_value` accepts exactly its grammar: it succeeds when some prefix of the text derives, with
the value and the rest of the one derivation with the longest numbers, whatever the order of its
alternatives is. -/
theorem parseValue_accepts (h : NumberTokens Token fc) (hst : st.IsInput mem) :
    Accepts Token mem (parseValue mem fc) st ∧
    (∀ v v' t t', Derives (LongestNumber Token) (st.text mem) v t →
      Derives (LongestNumber Token) (st.text mem) v' t' → v = v' ∧ t = t') ∧
    ∀ order, order.Perm JsonAlternative.all →
      (parseValueIn mem fc order).run st = (parseValue mem fc).run st := by
  have hvalue : Accepts Token mem (parseValue mem fc) st := by
    rw [← parseValueIn_all]
    exact accepts_parseValueIn h hst JsonAlternative.mem_all
  refine ⟨hvalue, fun v v' t t' hd hd' => ?_, fun order hperm => ?_⟩
  · rw [h.longestNumber_eq] at hd hd'
    by_cases hgood : st.good = true
    · exact (recognizes_parseValueIn mem h.numberGrammar JsonAlternative.mem_all).unique trivial
        (hst.shows hgood) hd hd'
    · have hnil := hst.text_eq_nil hgood
      rw [hnil] at hd
      exact absurd hd (not_derives_nil h.numberGrammar)
  · have horder : ∀ a, a ∈ order := fun a => hperm.mem_iff.2 a.mem_all
    exact (accepts_parseValueIn h hst horder).run_eq hvalue

end

/-! ### Decimal digits as numbers -/

def DigitsToken (w : List UInt8) (x : Nat) : Prop :=
  w ≠ [] ∧ w.all isDigit = true ∧ digitsValue w = x

def digitsFromChars : FromChars (double Nat) where
  fromChars text :=
    let ds := text.takeWhile isDigit
    if ds ≠ [] then some (ds.length, digitsValue ds) else none
  read_le {text n x} h := by
    simp only at h
    split at h
    · rename_i hne
      cases h
      exact ⟨List.length_pos_iff.2 hne, (List.takeWhile_prefix _).length_le⟩
    · cases h

theorem all_take_iff {text : List UInt8} {m : Nat} (hm : m ≤ text.length) :
    (text.take m).all isDigit = true ↔ m ≤ (text.takeWhile isDigit).length := by
  induction text generalizing m with
  | nil => simp at hm; simp [hm]
  | cons c text ih =>
    cases m with
    | zero => simp
    | succ m =>
      rw [List.take_succ_cons, List.all_cons, List.takeWhile_cons, Bool.and_eq_true]
      rw [List.length_cons, Nat.succ_le_succ_iff] at hm
      rw [ih hm]
      cases isDigit c <;> simp

theorem fromChars_digits_iff {text : List UInt8} {x : Nat} :
    digitsFromChars.fromChars text = some (n, x) ↔ n ≤ text.length ∧ DigitsToken (text.take n) x ∧
      ∀ m y, m ≤ text.length → DigitsToken (text.take m) y → m ≤ n := by
  have htaken := List.takeWhile_prefix isDigit (l := text)
  have htake := List.prefix_iff_eq_take.1 htaken
  have htoken : text.takeWhile isDigit ≠ [] → DigitsToken
      (text.take (text.takeWhile isDigit).length) (digitsValue (text.takeWhile isDigit)) := by
    intro hne
    rw [← htake]
    exact ⟨hne, List.all_takeWhile, rfl⟩
  have hmax : ∀ m y, m ≤ text.length → DigitsToken (text.take m) y →
      m ≤ (text.takeWhile isDigit).length := fun m y hm hy => (all_take_iff hm).1 hy.2.1
  have hdef : digitsFromChars.fromChars text = if text.takeWhile isDigit ≠ [] then
      some ((text.takeWhile isDigit).length, digitsValue (text.takeWhile isDigit)) else none := rfl
  rw [hdef]
  constructor
  · intro h
    split at h
    · rename_i hne
      cases h
      exact ⟨htaken.length_le, htoken hne, hmax⟩
    · cases h
  · rintro ⟨hn, hx, hlongest⟩
    -- `text.take n` is a number as well, and neither is longer than the other
    have hle := hmax n x hn hx
    have hne : text.takeWhile isDigit ≠ [] := by
      rintro hnil
      rw [hnil, List.length_nil, Nat.le_zero] at hle
      rw [hle] at hx
      exact hx.1 rfl
    obtain rfl : n = (text.takeWhile isDigit).length :=
      Nat.le_antisymm hle (hlongest _ _ htaken.length_le (htoken hne))
    rw [← htake] at hx
    rw [if_pos hne, hx.2.2]

theorem mem_numberStarts_of_isDigit {c : UInt8} (h : isDigit c = true) : c ∈ numberStarts := by
  have hall : ∀ d < 10, UInt8.ofNat (48 + d) ∈ numberStarts := by decide
  rw [isDigit, Bool.and_eq_true, decide_eq_true_eq, decide_eq_true_eq, UInt8.le_iff_toNat_le,
    UInt8.le_iff_toNat_le] at h
  have hlow : 48 ≤ c.toNat := h.1
  have hhigh : c.toNat ≤ 57 := h.2
  have hc := hall (c.toNat - 48) (by omega)
  rwa [Nat.add_sub_cancel' hlow, UInt8.ofNat_toNat] at hc

theorem numberTokens_digits : NumberTokens DigitsToken digitsFromChars where
  longest := fromChars_digits_iff
  start := by
    rintro (_ | ⟨c, u⟩) x ⟨hne, hall, -⟩
    · exact absurd rfl hne
    · rw [List.all_cons, Bool.and_eq_true] at hall
      exact ⟨c, u, rfl, mem_numberStarts_of_isDigit hall.1⟩
  not_literal := by
    rintro (_ | ⟨c, u⟩) x ⟨hne, hall, -⟩ lit hlit
    · exact absurd rfl hne
    · rw [List.all_cons, Bool.and_eq_true] at hall
      have hstart : ∃ d l, lit = d :: l ∧ isDigit d = false := by
        simp only [List.mem_cons, List.not_mem_nil, or_false] at hlit
        rcases hlit with rfl | rfl | rfl <;> exact ⟨_, _, rfl, rfl⟩
      obtain ⟨d, l, rfl, hd⟩ := hstart
      have hne' : d ≠ c := by
        rintro rfl
        rw [hall.1] at hd
        cases hd
      exact ⟨fun hp => hne' (List.cons_prefix_cons.1 hp).1,
        fun hp => hne' (List.cons_prefix_cons.1 hp).1.symm⟩
  no_delimiter := by
    rintro w x ⟨-, hall, -⟩ c hc hdelim
    have hno : delimiters.all (fun c => !isDigit c) = true := by decide
    have hc' := List.all_eq_true.1 hno c hdelim
    rw [List.all_eq_true.1 hall c hc] at hc'
    cases hc'

/-- A number of one digit. -/
theorem readNumber_digit {c d : UInt8} (hc : isDigit c = true) (hd : d ∈ delimiters) (t : List UInt8) :
    readNumber digitsFromChars (c :: d :: t) (digitsValue [c]) (d :: t) := by
  rw [← numberTokens_digits.longestNumber_eq]
  exact numberTokens_digits.longest_of_delimiter ⟨[c], rfl, by simp, by simpa using hc, rfl⟩ ⟨d, t, rfl, hd⟩

/-- A string of one character, which is no quote and no backslash. -/
theorem stringToken_char {c : UInt8} (hquote : c ≠ ch '"') (hbackslash : c ≠ ch '\\') (t : List UInt8) :
    StringToken (ch '"' :: c :: ch '"' :: t) [c] t := by
  refine ⟨rfl, .char (fun h => ?_) (fun h => ?_) (.nil _)⟩
  · exact hquote (List.cons_prefix_cons.1 h).1.symm
  · exact hbackslash (List.cons_prefix_cons.1 h).1.symm

/-- `[12, null]` -/
theorem parseValue_accepts_array :
    let mem := Memory.ofText
      [ch '[', ch '1', ch '2', ch ',', ch ' ', ch 'n', ch 'u', ch 'l', ch 'l', ch ']']
    (parseValue mem digitsFromChars).run (State.ofLength 10) =
      some (some (⟨11, 11⟩, .array [.number 12, .null])) := by
  intro mem
  have hst : (State.ofLength 10).IsInput mem := ⟨by decide, fun _ => rfl⟩
  have hrest : StartsDelimiter [ch ',', ch ' ', ch 'n', ch 'u', ch 'l', ch 'l', ch ']'] :=
    ⟨ch ',', _, rfl, by decide⟩
  have hnumber : LongestNumber DigitsToken
      [ch '1', ch '2', ch ',', ch ' ', ch 'n', ch 'u', ch 'l', ch 'l', ch ']'] 12
      [ch ',', ch ' ', ch 'n', ch 'u', ch 'l', ch 'l', ch ']'] :=
    numberTokens_digits.longest_of_delimiter
      ⟨[ch '1', ch '2'], rfl, by decide, by decide, by decide⟩ hrest
  have hsep : Separates (.charLiteral (ch ','))
      [ch ',', ch ' ', ch 'n', ch 'u', ch 'l', ch 'l', ch ']'] () (nullLiteral.text ++ [ch ']']) :=
    ⟨Blank.none, Blank.single (ch ' ') (by decide), rfl⟩
  refine ((parseValue_accepts numberTokens_digits hst).1.outcome ⟨11, 11⟩ _).2
    ⟨⟨rfl, by decide, by decide⟩, ?_⟩
  exact .array ⟨Blank.none, rfl⟩ (.cons (.number hnumber) (.cons hsep (.null _) (.nil _)))
    ⟨Blank.none, rfl⟩

end Noam
