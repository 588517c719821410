import Noam.Brackets
import Noam.Json

/-!
# The grammar of `parse_value`

`Derives` is the grammar of JSON values that the parser is an ordered choice over: at most one of its
alternatives derives something at the start of a text, so their order does not matter. Numbers are
what `std::from_chars` reads, the longest number token at the start of a text.
-/

namespace Noam
open GetResult ValueType Attempt Loop Framing Recognition

variable {N : Type} {mem : Memory} {st : State} {t t' t'' : List UInt8} {v v' : JsonValue N} {n : Nat}

/-- The token of `parse_string_view`: a raw view in quotes. -/
def StringToken : Grammar UInt8 (List UInt8) := Framed [ch '"'] [ch '\\'] [ch '"']

def booleanLiteral : Bool → List UInt8
  | true => [ch 't', ch 'r', ch 'u', ch 'e']
  | false => [ch 'f', ch 'a', ch 'l', ch 's', ch 'e']

/-- The entries of an object as a map; the first one of a key is kept. -/
def jsonObject (entries : List (List UInt8 × JsonValue N)) : JsonObject N :=
  entries.foldl (emplaceEntry (V := stringView) (W := jsonValue N))
    (EmplaceMap.empty stringView (jsonValue N))

mutual

/-- JSON values, with the numbers of `num`. -/
inductive Derives (num : Grammar UInt8 N) : List UInt8 → JsonValue N → List UInt8 → Prop
  | null (t : List UInt8) : Derives num (nullLiteral.text ++ t) .null t
  | boolean (b : Bool) (t : List UInt8) : Derives num (booleanLiteral b ++ t) (.boolean b) t
  | number {t t' : List UInt8} {x : N} (h : num t x t') : Derives num t (.number x) t'
  | string {t t' raw : List UInt8} (h : StringToken t raw t') : Derives num t (.string raw) t'
  | array {t t₁ t₂ t' : List UInt8} {vs : List (JsonValue N)}
      (hopen : Opens (.charLiteral (ch '[')) t () t₁)
      (h : SepList (Separates (.charLiteral (ch ','))) (Derives num) t₁ vs t₂)
      (hclose : Closes (.charLiteral (ch ']')) t₂ () t') : Derives num t (.array vs) t'
  | object {t t₁ t₂ t' : List UInt8} {entries : List (List UInt8 × JsonValue N)}
      (hopen : Opens (.charLiteral (ch '{')) t () t₁)
      (h : SepList (Separates (.charLiteral (ch ','))) (DerivesEntry num) t₁ entries t₂)
      (hclose : Closes (.charLiteral (ch '}')) t₂ () t') :
      Derives num t (.object (jsonObject entries)) t'

/-- The entries of an object. -/
inductive DerivesEntry (num : Grammar UInt8 N) :
    List UInt8 → List UInt8 × JsonValue N → List UInt8 → Prop
  | mk {t t₁ t₂ t' key : List UInt8} {v : JsonValue N} (hkey : StringToken t key t₁)
      (hsep : Separates (.charLiteral (ch ':')) t₁ () t₂) (h : Derives num t₂ v t') :
      DerivesEntry num t (key, v) t'

end

/-! ### The alternatives -/

/-- The entries of an object, with the values of `G`. -/
def EntryOf (G : Grammar UInt8 (JsonValue N)) : Grammar UInt8 (List UInt8 × JsonValue N) := fun t e t' =>
  ∃ t₁ t₂, StringToken t e.1 t₁ ∧ Separates (.charLiteral (ch ':')) t₁ () t₂ ∧ G t₂ e.2 t'

theorem derivesEntry_eq (num : Grammar UInt8 N) : DerivesEntry num = EntryOf (Derives num) := by
  funext t e t'
  refine propext ⟨fun h => ?_, fun ⟨t₁, t₂, hkey, hsep, h⟩ => .mk hkey hsep h⟩
  cases h with
  | mk hkey hsep h => exact ⟨_, _, hkey, hsep, h⟩

/-- What an alternative derives, with the values of `G` inside of brackets. -/
def JsonAlternative.grammar (num : Grammar UInt8 N) (G : Grammar UInt8 (JsonValue N)) :
    JsonAlternative → Grammar UInt8 (JsonValue N)
  | null => fun t v t' => t = nullLiteral.text ++ t' ∧ v = .null
  | boolean => fun t v t' => ∃ b, t = booleanLiteral b ++ t' ∧ v = .boolean b
  | number => fun t v t' => ∃ x, num t x t' ∧ v = .number x
  | string => fun t v t' => ∃ raw, StringToken t raw t' ∧ v = .string raw
  | array => fun t v t' => ∃ vs, Bracketed (.charLiteral (ch '[')) (.charLiteral (ch ','))
      (.charLiteral (ch ']')) G t vs t' ∧ v = .array vs
  | object => fun t v t' => ∃ entries, Bracketed (.charLiteral (ch '{')) (.charLiteral (ch ','))
      (.charLiteral (ch '}')) (EntryOf G) t entries t' ∧ v = .object (jsonObject entries)

theorem derives_iff {num : Grammar UInt8 N} : Derives num t v t' ↔
    ∃ a : JsonAlternative, a.grammar num (Derives num) t v t' := by
  have hentry := derivesEntry_eq num
  constructor
  · intro h
    cases h with
    | null => exact ⟨.null, rfl, rfl⟩
    | boolean b => exact ⟨.boolean, b, rfl, rfl⟩
    | number h => exact ⟨.number, _, h, rfl⟩
    | string h => exact ⟨.string, _, h, rfl⟩
    | array hopen h hclose => exact ⟨.array, _, ⟨_, _, hopen, h, hclose⟩, rfl⟩
    | object hopen h hclose => exact ⟨.object, _, ⟨_, _, hopen, hentry ▸ h, hclose⟩, rfl⟩
  · rintro ⟨a, h⟩
    cases a with
    | null => obtain ⟨rfl, rfl⟩ := h; exact .null _
    | boolean => obtain ⟨b, rfl, rfl⟩ := h; exact .boolean b _
    | number => obtain ⟨x, h, rfl⟩ := h; exact .number h
    | string => obtain ⟨raw, h, rfl⟩ := h; exact .string h
    | array => obtain ⟨vs, ⟨t₁, t₂, hopen, h, hclose⟩, rfl⟩ := h; exact .array hopen h hclose
    | object =>
      obtain ⟨entries, ⟨t₁, t₂, hopen, h, hclose⟩, rfl⟩ := h
      exact .object hopen (hentry ▸ h) hclose

/-- The characters that a number can start with; a letter is the first one of `inf` or `nan`. -/
def numberStarts : List UInt8 :=
  [ch '0', ch '1', ch '2', ch '3', ch '4', ch '5', ch '6', ch '7', ch '8', ch '9', ch '.', ch '-',
    ch 'i', ch 'I', ch 'n', ch 'N']

/-- Numbers start as they should and none starts a text that starts with `null`. -/
structure NumberGrammar (num : Grammar UInt8 N) : Prop where
  start : ∀ {t x t'}, num t x t' → ∃ c u, t = c :: u ∧ c ∈ numberStarts
  not_null : ∀ {t x t'}, num t x t' → ¬ nullLiteral.text <+: t

/-- The characters that an alternative can start with. -/
def JsonAlternative.starts : JsonAlternative → List UInt8
  | null => [ch 'n']
  | boolean => [ch 't', ch 'f']
  | number => numberStarts
  | string => [ch '"']
  | array => [ch '[']
  | object => [ch '{']

theorem elementStart_cons {c d : UInt8} (h : (!(c ∈ whitespaceChars) && !(d == c)) = true)
    (t : List UInt8) : ElementStart (.charLiteral d) (c :: t) := by
  rw [Bool.and_eq_true, Bool.not_eq_true', Bool.not_eq_true'] at h
  refine ⟨h.1, fun hp => ?_⟩
  have hne : d ≠ c := by simpa using h.2
  exact hne (List.cons_prefix_cons.1 hp).1

/-- Only `null` and the numbers share a first character. -/
theorem starts_disjoint (a b : JsonAlternative) (h : a.starts.any (· ∈ b.starts) = true) :
    a = b ∨ a = .null ∧ b = .number ∨ a = .number ∧ b = .null := by
  revert h
  cases a <;> cases b <;> decide

section
variable {num : Grammar UInt8 N} (hnum : NumberGrammar num)
variable {G : Grammar UInt8 (JsonValue N)}
include hnum

theorem starts_of_grammar {a : JsonAlternative} (h : a.grammar num G t v t') :
    ∃ c u, t = c :: u ∧ c ∈ a.starts := by
  cases a with
  | null => exact ⟨_, _, h.1, List.mem_cons_self⟩
  | boolean =>
    obtain ⟨b, rfl, -⟩ := h
    cases b
    · exact ⟨_, _, rfl, by decide⟩
    · exact ⟨_, _, rfl, by decide⟩
  | number => obtain ⟨x, h, -⟩ := h; exact hnum.start h
  | string => obtain ⟨raw, h, -⟩ := h; exact ⟨_, _, h.text_eq, List.mem_cons_self⟩
  | array => obtain ⟨vs, ⟨t₁, t₂, ⟨a, rfl⟩, -⟩, -⟩ := h; exact ⟨_, _, rfl, List.mem_cons_self⟩
  | object => obtain ⟨es, ⟨t₁, t₂, ⟨a, rfl⟩, -⟩, -⟩ := h; exact ⟨_, _, rfl, List.mem_cons_self⟩

/-- At most one alternative derives something. -/
theorem alternative_unique {a b : JsonAlternative} (h : a.grammar num G t v t')
    (h' : b.grammar num G t v' t'') : a = b := by
  obtain ⟨c, u, htext, hc⟩ := starts_of_grammar hnum h
  obtain ⟨c', u', htext', hc'⟩ := starts_of_grammar hnum h'
  obtain rfl : c = c' := (List.cons.inj (htext.symm.trans htext')).1
  have hany : a.starts.any (· ∈ b.starts) = true := List.any_eq_true.2 ⟨c, hc, by simpa using hc'⟩
  rcases starts_disjoint a b hany with rfl | ⟨rfl, rfl⟩ | ⟨rfl, rfl⟩
  · rfl
  · obtain ⟨x, hx, -⟩ := h'
    exact absurd ⟨t', h.1.symm⟩ (hnum.not_null hx)
  · obtain ⟨x, hx, -⟩ := h
    exact absurd ⟨t'', h'.1.symm⟩ (hnum.not_null hx)

theorem elementStart_of_derives (h : Derives num t v t') : ElementStart (.charLiteral (ch ']')) t := by
  obtain ⟨a, h⟩ := derives_iff.1 h
  obtain ⟨c, u, rfl, hc⟩ := starts_of_grammar hnum h
  have hall : a.starts.all (fun c => !(c ∈ whitespaceChars) && !(ch ']' == c)) = true := by
    cases a <;> decide
  exact elementStart_cons (List.all_eq_true.1 hall c hc) u

end

theorem elementStart_of_entryOf {G : Grammar UInt8 (JsonValue N)} {entry : List UInt8 × JsonValue N}
    (h : EntryOf G t entry t') : ElementStart (.charLiteral (ch '}')) t := by
  obtain ⟨t₁, t₂, hkey, -⟩ := h
  rw [hkey.text_eq]
  exact elementStart_cons (by decide) _

/-! ### The parsers of the alternatives -/

/-- What `std::from_chars` reads. -/
def readNumber [Inhabited N] (fc : FromChars (double N)) : Grammar UInt8 N := fun t x t' =>
  ∃ n, fc.fromChars t = some (n, x) ∧ t' = t.drop n

theorem eq_append_iff {w : List UInt8} : t = w ++ t' ↔ w <+: t ∧ t' = t.drop w.length := by
  constructor
  · rintro rfl
    exact ⟨List.prefix_append _ _, List.drop_left.symm⟩
  · rintro ⟨⟨u, rfl⟩, rfl⟩
    rw [List.drop_left]

theorem recognizes_null (mem : Memory) :
    Recognizes (textCursor mem) Anywhere (literalConstant mem (V := nullptr) () [nullLiteral]).run
      fun t _ t' => t = nullLiteral.text ++ t' := by
  refine ((literalConstant_reads _ _).recognizes fun _ => rfl).congr fun t u t' _ => ?_
  rw [eq_append_iff, literalText, AnyLiteral.firstPrefix, List.find?_cons, List.find?_nil]
  by_cases hp : nullLiteral.text.isPrefixOf t = true
  · simp only [hp]
    constructor
    · rintro ⟨-, rfl⟩
      exact ⟨_, rfl, rfl⟩
    · rintro ⟨n, hn, rfl⟩
      cases hn
      exact ⟨List.isPrefixOf_iff_prefix.1 hp, rfl⟩
  · simp only [hp]
    refine ⟨fun h => absurd (List.isPrefixOf_iff_prefix.2 h.1) hp, ?_⟩
    rintro ⟨n, hn, -⟩
    cases hn

theorem recognizes_boolean (mem : Memory) :
    Recognizes (textCursor mem) Anywhere (boolParser mem).run
      fun t b t' => t = booleanLiteral b ++ t' := by
  refine (boolParser_reads.recognizes fun t => ?_).congr fun t b t' _ => ?_
  · unfold boolText
    split
    · rfl
    · split <;> rfl
  · rw [eq_append_iff]
    unfold boolText
    constructor
    · rintro ⟨hp, rfl⟩
      cases b
      · have hno : ¬ [ch 't', ch 'r', ch 'u', ch 'e'].isPrefixOf t = true := by
          rw [List.isPrefixOf_iff_prefix]
          intro hq
          rcases List.prefix_or_prefix_of_prefix hp hq with h | h <;> revert h <;> decide
        exact ⟨5, (if_neg hno).trans (if_pos (List.isPrefixOf_iff_prefix.2 hp)), rfl⟩
      · exact ⟨4, if_pos (List.isPrefixOf_iff_prefix.2 hp), rfl⟩
    · rintro ⟨n, hn, rfl⟩
      split at hn
      · rename_i hp
        cases hn
        exact ⟨List.isPrefixOf_iff_prefix.1 hp, rfl⟩
      · split at hn <;> cases hn
        rename_i hp
        exact ⟨List.isPrefixOf_iff_prefix.1 hp, rfl⟩

theorem recognizes_number [Inhabited N] (fc : FromChars (double N)) (mem : Memory) :
    Recognizes (textCursor mem) Anywhere (charconv mem fc).run (readNumber fc) := by
  refine ((charconv_reads fc).recognizes fun _ => rfl).congr fun t x t' _ => ?_
  unfold readNumber
  simp only [Option.some.injEq]

theorem recognizes_string (mem : Memory) :
    Recognizes (textCursor mem) Anywhere (parseStringView mem).run StringToken := by
  have hescape : 0 < (AnyLiteral.charLiteral (ch '\\')).size := Nat.zero_lt_one
  have hend : 0 < (AnyLiteral.charLiteral (ch '"')).size := Nat.zero_lt_one
  refine ((viewParser_reads _ _ _).recognizes (isSome_viewText hescape)).congr fun t raw t' _ => ?_
  constructor
  · intro h
    have hframed : Framed (AnyLiteral.charLiteral (ch '"')).text (AnyLiteral.charLiteral (ch '\\')).text
      (AnyLiteral.charLiteral (ch '"')).text t raw t' := h
    exact ⟨_, (viewText_eq_some_iff hend).2 ⟨t', hframed, rfl⟩, (text_eq_of_framed hframed).2.symm⟩
  · rintro ⟨n, hn, rfl⟩
    obtain ⟨r, h, rfl⟩ := (viewText_eq_some_iff hend).1 hn
    rw [(text_eq_of_framed h).2]
    exact h

section
variable {value : Parser false (jsonValue N)} {G : Grammar UInt8 (JsonValue N)}

theorem punctuation_array : Punctuation (.charLiteral (ch ',')) (.charLiteral (ch ']')) := by
  constructor <;> decide

theorem punctuation_object : Punctuation (.charLiteral (ch ',')) (.charLiteral (ch '}')) := by
  constructor <;> decide

theorem recognizes_array (h : Recognizes (textCursor mem) (ShorterThan n) value.run G)
    (hG : ∀ t v t', G t v t' → ElementStart (.charLiteral (ch ']')) t) :
    Recognizes (textCursor mem) (ShorterThan (n + 1))
      (sequenceCommas mem (.charLiteral (ch '[')) (.charLiteral (ch ']')) value).run
      (Bracketed (.charLiteral (ch '[')) (.charLiteral (ch ',')) (.charLiteral (ch ']')) G) := by
  rw [sequenceCommas, sequenceEnclosed_eq]
  refine (recognizes_ofAttempt rfl (recognizes_bracketed punctuation_array (by decide) h hG
    pushBack [])).congr fun t vs t' _ => ?_
  constructor
  · intro hb
    exact ⟨vs, hb, (foldl_pushBack [] vs).symm⟩
  · rintro ⟨vs', hb, rfl⟩
    rw [foldl_pushBack]
    exact hb

theorem run_makePair_eq {V W : ValueType} (mem : Memory) (sep : AnyLiteral) (key : Parser false V)
    (val : Parser false W) : (makePair mem sep key val).run = (Parser.ofAttempt (V := pair V W) false
      (bind key.run fun v => Attempt.map (fun w => (v, w)) (joined mem sep val).run)).run := by
  rw [run_makePair]
  simp only [Parsers.runAll, map_bind]
  rfl

theorem recognizes_colon (mem : Memory) : Recognizes (textCursor mem) Anywhere
    (match_ (.cons (separator mem [.charLiteral (ch ':')]) .nil)).run
      fun t u t' => Separates (.charLiteral (ch ':')) t u t' ∧ startsBlank t' = false := by
  have hkeep : (Parsers.cons (separator mem [.charLiteral (ch ':')]) .nil).KeepNonNull :=
    ⟨separator_keepsNonNull mem _, trivial⟩
  have hrefines := match_refines hkeep
  rw [Parsers.skipAll_last] at hrefines
  exact (recognizes_separator mem (by decide) (by decide)).congr_run
    fun st t _ hst => hrefines.run_eq hst.good

theorem recognizes_joined {V : ValueType} {val : Parser false V} {G : Grammar UInt8 V}
    (h : Recognizes (textCursor mem) (ShorterThan n) val.run G)
    (hG : ∀ t v t', G t v t' → startsBlank t = false) :
    Recognizes (textCursor mem) (ShorterThan n) (joined mem (.charLiteral (ch ':')) val).run
      fun t v t' => ∃ t₁, Separates (.charLiteral (ch ':')) t () t₁ ∧ G t₁ v t' := by
  rw [run_joined]
  refine ((recognizes_shorter (recognizes_colon mem) n).bind (fun _ => h)
    fun w t _ hD _ => shorterThan_of_append hD).congr fun t v t' _ => ?_
  constructor
  · rintro ⟨t₁, hs, hg⟩
    exact ⟨(), t₁, ⟨hs, hG _ _ _ hg⟩, hg⟩
  · rintro ⟨_, t₁, hs, hg⟩
    exact ⟨t₁, hs.1, hg⟩

theorem recognizes_entry (h : Recognizes (textCursor mem) (ShorterThan n) value.run G)
    (hG : ∀ t v t', G t v t' → startsBlank t = false) :
    Recognizes (textCursor mem) (ShorterThan n)
      (makePair mem (.charLiteral (ch ':')) (parseStringView mem) value).run (EntryOf G) := by
  rw [run_makePair_eq]
  refine (recognizes_ofAttempt rfl ((recognizes_shorter (recognizes_string mem) n).bind
    (fun key => (recognizes_joined h hG).map _) fun w t _ hD _ => shorterThan_of_append hD)).congr
      fun t e t' _ => ?_
  constructor
  · rintro ⟨t₁, t₂, hkey, hsep, hg⟩
    exact ⟨e.1, t₁, hkey, e.2, ⟨t₂, hsep, hg⟩, rfl⟩
  · rintro ⟨key, t₁, hkey, v, ⟨t₂, hsep, hg⟩, rfl⟩
    exact ⟨t₁, t₂, hkey, hsep, hg⟩

theorem recognizes_object (h : Recognizes (textCursor mem) (ShorterThan n) value.run G)
    (hG : ∀ t v t', G t v t' → startsBlank t = false) :
    Recognizes (textCursor mem) (ShorterThan (n + 1))
      (parseMapBraces mem (JsonObject N) (parseStringView mem) value).run
      fun t m t' => ∃ entries, Bracketed (.charLiteral (ch '{')) (.charLiteral (ch ','))
        (.charLiteral (ch '}')) (EntryOf G) t entries t' ∧ m = jsonObject entries := by
  rw [parseMapBraces, parseMap_eq]
  exact recognizes_ofAttempt rfl (recognizes_bracketed punctuation_object (by decide)
    (recognizes_entry h hG) (fun _ _ _ he => elementStart_of_entryOf he) _ _)

end

/-! ### The choice and the recursion -/

section
variable [Inhabited N] {fc : FromChars (double N)} {value : Parser false (jsonValue N)}
variable {G : Grammar UInt8 (JsonValue N)}

/-- One alternative of the choice. -/
def JsonAlternative.attempt (mem : Memory) (fc : FromChars (double N))
    (value : Parser false (jsonValue N)) (a : JsonAlternative) : Attempt State (JsonValue N) :=
  (a.cons mem fc value .nil).runFirst

theorem runFirst_cons {gs : List Bool} (a : JsonAlternative) (ps : Alternatives (jsonValue N) gs) :
    (a.cons mem fc value ps).runFirst = orElse (a.attempt mem fc value) ps.runFirst := by
  cases a <;> exact congrArg (orElse · _) (runFirst_singleton _ _).symm

theorem runFirst_alternativesIn (order : List JsonAlternative) :
    (alternativesIn mem fc value order).runFirst = firstOf (order.map (·.attempt mem fc value)) := by
  induction order with
  | nil => rfl
  | cons a order ih => exact (runFirst_cons a _).trans (congrArg (orElse _) ih)

theorem recognizes_alternative
    (h : Recognizes (textCursor mem) (ShorterThan n) value.run G)
    (hG : ∀ t v t', G t v t' → ElementStart (.charLiteral (ch ']')) t) (a : JsonAlternative) :
    Recognizes (textCursor mem) (ShorterThan (n + 1)) (a.attempt mem fc value)
      (a.grammar (readNumber fc) G) := by
  have hblank : ∀ t v t', G t v t' → startsBlank t = false := fun t v t' hg => (hG t v t' hg).1
  unfold JsonAlternative.attempt
  cases a with
  | null =>
    rw [JsonAlternative.cons, runFirst_singleton]
    refine (recognizes_shorter (recognizes_null mem) _).map _ |>.congr fun t v t' _ => ?_
    exact ⟨fun ⟨ht, hv⟩ => ⟨(), ht, hv⟩, fun ⟨_, ht, hv⟩ => ⟨ht, hv⟩⟩
  | boolean =>
    rw [JsonAlternative.cons, runFirst_singleton]
    exact (recognizes_shorter (recognizes_boolean mem) _).map _
  | number =>
    rw [JsonAlternative.cons, runFirst_singleton]
    exact (recognizes_shorter (recognizes_number fc mem) _).map _
  | string =>
    rw [JsonAlternative.cons, runFirst_singleton]
    exact (recognizes_shorter (recognizes_string mem) _).map _
  | array =>
    rw [JsonAlternative.cons, runFirst_singleton]
    exact (recognizes_array h hG).map _
  | object =>
    rw [JsonAlternative.cons, runFirst_singleton]
    refine (recognizes_object h hblank).map _ |>.congr fun t v t' _ => ?_
    constructor
    · rintro ⟨entries, hb, rfl⟩
      exact ⟨_, ⟨entries, hb, rfl⟩, rfl⟩
    · rintro ⟨_, ⟨entries, hb, rfl⟩, rfl⟩
      exact ⟨entries, hb, rfl⟩

/-- Any order of the alternatives recognises the same. -/
theorem recognizes_valueOfIn (hnum : NumberGrammar (readNumber fc))
    (h : Recognizes (textCursor mem) (ShorterThan n) value.run G)
    (hG : ∀ t v t', G t v t' → ElementStart (.charLiteral (ch ']')) t) {order : List JsonAlternative}
    (horder : ∀ a, a ∈ order) : Recognizes (textCursor mem) (ShorterThan (n + 1))
      (valueOfIn mem fc order value).run
        fun t v t' => ∃ a, JsonAlternative.grammar (readNumber fc) G a t v t' := by
  have hgood : eitherGood (order.map fun _ => false) = false := by
    rw [eitherGood_eq]; simp
  rw [valueOfIn, run_either, runFirst_alternativesIn]
  refine (recognizes_ofAttempt hgood (recognizes_firstOf
    (recognizes_alternative h hG) (fun _ ha hb => alternative_unique hnum ha hb)
      order)).congr fun t v t' _ => ?_
  exact ⟨fun ⟨a, ha⟩ => ⟨a, horder a, ha⟩, fun ⟨a, _, ha⟩ => ⟨a, ha⟩⟩

theorem recognizes_parseValueIn (mem : Memory) (hnum : NumberGrammar (readNumber fc))
    {order : List JsonAlternative} (horder : ∀ a, a ∈ order) :
    Recognizes (textCursor mem) Anywhere (parseValueIn mem fc order).run (Derives (readNumber fc)) := by
  have hwithin : ∀ n, Recognizes (textCursor mem) (ShorterThan n) (parseValueIn mem fc order).run
      (Derives (readNumber fc)) := by
    intro n
    induction n with
    | zero => exact ⟨fun h => absurd h (Nat.not_lt_zero _), fun h => absurd h (Nat.not_lt_zero _)⟩
    | succ n ih =>
      refine ((recognizes_valueOfIn hnum ih (fun _ _ _ => elementStart_of_derives hnum) horder).congr
        fun t v t' _ => derives_iff).congr_run fun st t _ hst => ?_
      have h := guarded_valueOfIn mem fc order
      have hunfold := h.recurse_unfold suffixClosed_valid hst.valid hst.good
      rw [recurse_eq] at hunfold
      exact hunfold
  exact ⟨fun {st t v t'} _ => (hwithin (t.length + 1)).parses (Nat.lt_succ_self _),
    fun {st t} _ => (hwithin (t.length + 1)).fails (Nat.lt_succ_self _)⟩

/-- `parse_value` takes a whole text that derives a value. -/
theorem parseValue_of_derives (hnum : NumberGrammar (readNumber fc)) (hst : st.Shows mem t)
    (h : Derives (readNumber fc) t v []) :
    (parseValue mem fc).run st = some (some (st.removePrefix t.length, v)) := by
  obtain ⟨w, rfl, hrun⟩ := (recognizes_parseValueIn mem hnum JsonAlternative.mem_all).parses trivial hst h
  rw [List.append_nil, ← parseValueIn_all]
  exact hrun

end

end Noam
