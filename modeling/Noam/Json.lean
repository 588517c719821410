import Noam.Recursion
import Noam.StdMap

/-!
# The JSON parser (`json-example.cpp`, `json_value.hpp`)

`N` are the values of `double`; the names and texts of a JSON value are raw views.
-/

namespace Noam
open GetResult ValueType Attempt Loop

/-- `json_value`: a variant of `nullptr_t`, `string_view`, `double`, `bool`, a map and a vector. -/
inductive JsonValue (N : Type) where
  | null
  | string (text : List UInt8)
  | number (x : N)
  | boolean (b : Bool)
  | object (entries : List (List UInt8 × JsonValue N))
  | array (elems : List (JsonValue N))

/-- `json::object` -/
abbrev JsonObject (N : Type) := StdMap (List UInt8) (JsonValue N)

namespace ValueType

/-- `std::nullptr_t` -/
abbrev nullptr : ValueType := type Unit (some ())

/-- `double`; `default` is `double()`. -/
abbrev double (N : Type) [Inhabited N] : ValueType := type N (some default)

/-- `json_value()` holds the first alternative of the variant. -/
abbrev jsonValue (N : Type) : ValueType := type (JsonValue N) (some .null)

end ValueType

variable {N : Type} {mem : Memory} {st : State}

/-- `"null"` -/
def nullLiteral : AnyLiteral := .stringLiteral [ch 'n', ch 'u', ch 'l', ch 'l']

/-- The alternatives of `parse_value`. -/
def valueAlternatives [Inhabited N] (mem : Memory) (fc : FromChars (double N)) (value : Parser false (jsonValue N)) :
    Alternatives (jsonValue N) [false, false, false, false, false, false] :=
  .cons (literalConstant mem (V := nullptr) () [nullLiteral]) (.convert fun _ => .null) <|
  .cons (boolParser mem) (.convert .boolean) <|
  .cons (charconv mem fc) (.convert .number) <|
  .cons (parseStringView mem) (.convert .string) <|
  .cons (sequenceCommas mem (.charLiteral (ch '[')) (.charLiteral (ch ']')) value) (.convert .array) <|
  .cons (parseMapBraces mem (JsonObject N) (parseStringView mem) value) (.convert .object) .nil

/-- The function that `parse_value` is the recursion of. -/
def valueOf [Inhabited N] (mem : Memory) (fc : FromChars (double N)) (value : Parser false (jsonValue N)) :
    Parser false (jsonValue N) := either (valueAlternatives mem fc value)

/-- `json::parse_value` -/
def parseValue [Inhabited N] (mem : Memory) (fc : FromChars (double N)) : Parser false (jsonValue N) :=
  recurseConstant (valueOf mem fc)

/-- `json::parse_json` -/
def parseJson [Inhabited N] (mem : Memory) (fc : FromChars (double N)) : Parser false (jsonValue N) :=
  whitespaceEnclose mem (parseValue mem fc)

/-! ### Other orders of the alternatives -/

/-- The alternatives of `parse_value`. -/
inductive JsonAlternative where
  | null
  | boolean
  | number
  | string
  | array
  | object
deriving DecidableEq

/-- The order of the alternatives in `parse_value`. -/
def JsonAlternative.all : List JsonAlternative := [.null, .boolean, .number, .string, .array, .object]

theorem JsonAlternative.mem_all (a : JsonAlternative) : a ∈ JsonAlternative.all := by
  cases a <;> decide

/-- An alternative of `parse_value` in front of others. -/
def JsonAlternative.cons [Inhabited N] (mem : Memory) (fc : FromChars (double N))
    (value : Parser false (jsonValue N)) {gs : List Bool} (ps : Alternatives (jsonValue N) gs) :
    JsonAlternative → Alternatives (jsonValue N) (false :: gs)
  | null => .cons (literalConstant mem (V := nullptr) () [nullLiteral]) (.convert fun _ => .null) ps
  | boolean => .cons (boolParser mem) (.convert .boolean) ps
  | number => .cons (charconv mem fc) (.convert .number) ps
  | string => .cons (parseStringView mem) (.convert .string) ps
  | array => .cons (sequenceCommas mem (.charLiteral (ch '[')) (.charLiteral (ch ']')) value)
      (.convert .array) ps
  | object => .cons (parseMapBraces mem (JsonObject N) (parseStringView mem) value)
      (.convert .object) ps

/-- The alternatives of `parse_value` in another order. -/
def alternativesIn [Inhabited N] (mem : Memory) (fc : FromChars (double N))
    (value : Parser false (jsonValue N)) :
    (order : List JsonAlternative) → Alternatives (jsonValue N) (order.map fun _ => false)
  | [] => .nil
  | a :: order => a.cons mem fc value (alternativesIn mem fc value order)

def valueOfIn [Inhabited N] (mem : Memory) (fc : FromChars (double N)) (order : List JsonAlternative)
    (value : Parser false (jsonValue N)) :
    Parser (eitherGood (order.map fun _ => false)) (jsonValue N) :=
  either (alternativesIn mem fc value order)

/-- `parse_value` with its alternatives in another order. -/
def parseValueIn [Inhabited N] (mem : Memory) (fc : FromChars (double N))
    (order : List JsonAlternative) : Parser false (jsonValue N) :=
  recurseConstant (valueOfIn mem fc order)

theorem parseValueIn_all [Inhabited N] (mem : Memory) (fc : FromChars (double N)) :
    parseValueIn mem fc JsonAlternative.all = parseValue mem fc := rfl

/-! ### `parse_value` is guarded

Its recursive uses are the elements behind `[` and the values behind `{`. -/

section
variable (mem : Memory)

theorem takes_literalConstant {V : ValueType} (v : V) (lits : List AnyLiteral) :
    Takes 0 (literalConstant mem v lits).run :=
  (literalConstant_reads v lits).takes fun _ _ _ _ => Nat.zero_le _

theorem takes_boolParser : Takes 0 (boolParser mem).run :=
  boolParser_reads.takes fun _ _ _ _ => Nat.zero_le _

theorem takes_charconv {V : ValueType} (fc : FromChars V) : Takes 0 (charconv mem fc).run :=
  (charconv_reads fc).takes fun _ _ _ _ => Nat.zero_le _

theorem takes_parseStringView : Takes 0 (parseStringView mem).run :=
  (viewParser_reads _ _ _).takes fun _ _ _ _ => Nat.zero_le _

theorem total_literalConstant {V : ValueType} (v : V) (lits : List AnyLiteral) :
    Total State.Valid (literalConstant mem v lits).run :=
  (literalConstant_reads v lits).total (fun _ => rfl) (by simp)

theorem total_boolParser : Total State.Valid (boolParser mem).run := by
  refine boolParser_reads.total (fun text => ?_) (by simp)
  unfold boolText
  split
  · rfl
  · split <;> rfl

theorem total_charconv {V : ValueType} (fc : FromChars V) : Total State.Valid (charconv mem fc).run :=
  (charconv_reads fc).total (fun _ => rfl) (by simp)

theorem total_parseStringView : Total State.Valid (parseStringView mem).run :=
  (viewParser_reads _ _ _).total (isSome_viewText Nat.zero_lt_one) (by simp)

end

section
variable {value value' : Parser false (jsonValue N)}

theorem size_charLiteral_pos (c : UInt8) : 0 < (AnyLiteral.charLiteral c).size := Nat.zero_lt_one

theorem takes_array (h : Takes 0 value.run) :
    Takes 0 (sequenceCommas mem (.charLiteral (ch '[')) (.charLiteral (ch ']')) value).run := by
  rw [sequenceCommas, sequenceEnclosed_eq]
  exact ((takes_bracketed h []).mono (Nat.zero_le _)).ofAttempt

theorem total_array (hv : st.Valid) (h : Takes 0 value.run) (ht : Total st.Below value.run) :
    Total (· = st) (sequenceCommas mem (.charLiteral (ch '[')) (.charLiteral (ch ']')) value).run := by
  rw [sequenceCommas, sequenceEnclosed_eq]
  exact total_ofAttempt
    (total_bracketed (size_charLiteral_pos _) (size_charLiteral_pos _) hv h ht []) (by simp)

theorem approx_array (hv : st.Valid) (h : Approx st.Below st.Below value.run value'.run) :
    Approx (· = st) st.Below
      (sequenceCommas mem (.charLiteral (ch '[')) (.charLiteral (ch ']')) value).run
      (sequenceCommas mem (.charLiteral (ch '[')) (.charLiteral (ch ']')) value').run := by
  rw [sequenceCommas, sequenceCommas, sequenceEnclosed_eq, sequenceEnclosed_eq]
  exact approx_ofAttempt (approx_bracketed (size_charLiteral_pos _) hv h [])

theorem takes_object (h : Takes 0 value.run) :
    Takes 0 (parseMapBraces mem (JsonObject N) (parseStringView mem) value).run := by
  have hpair := takes_makePair (.charLiteral (ch ':')) mem (takes_parseStringView mem) h
  rw [parseMapBraces, parseMap_eq]
  exact ((takes_bracketed hpair _).mono (Nat.zero_le _)).ofAttempt

theorem total_object (hv : st.Valid) (h : Takes 0 value.run) (ht : Total st.Below value.run) :
    Total (· = st) (parseMapBraces mem (JsonObject N) (parseStringView mem) value).run := by
  have hkey := takes_parseStringView mem
  have hpair := takes_makePair (.charLiteral (ch ':')) mem hkey h
  have htotal := total_makePair (.charLiteral (ch ':')) mem (total_parseStringView mem) hkey h ht
  rw [parseMapBraces, parseMap_eq]
  exact total_ofAttempt
    (total_bracketed (size_charLiteral_pos _) (size_charLiteral_pos _) hv hpair htotal _) (by simp)

theorem approx_object (hv : st.Valid) (h : Approx st.Below st.Below value.run value'.run) :
    Approx (· = st) st.Below (parseMapBraces mem (JsonObject N) (parseStringView mem) value).run
      (parseMapBraces mem (JsonObject N) (parseStringView mem) value').run := by
  have hpair := approx_makePair (.charLiteral (ch ':')) mem (takes_parseStringView mem) h
  rw [parseMapBraces, parseMapBraces, parseMap_eq, parseMap_eq]
  exact approx_ofAttempt (approx_bracketed (size_charLiteral_pos _) hv hpair _)

variable [Inhabited N] (fc : FromChars (double N)) (order : List JsonAlternative)

theorem takes_alternativesIn (h : Takes 0 value.run) :
    Takes 0 (alternativesIn mem fc value order).runFirst := by
  induction order with
  | nil => intro st st' v _ hr; cases hr
  | cons a order ih =>
    cases a with
    | null => exact takes_alternative _ (takes_literalConstant mem _ _) ih
    | boolean => exact takes_alternative _ (takes_boolParser mem) ih
    | number => exact takes_alternative _ (takes_charconv mem fc) ih
    | string => exact takes_alternative _ (takes_parseStringView mem) ih
    | array => exact takes_alternative _ (takes_array h) ih
    | object => exact takes_alternative _ (takes_object h) ih

theorem total_alternativesIn (hv : st.Valid) (h : Takes 0 value.run) (ht : Total st.Below value.run) :
    Total (· = st) (alternativesIn mem fc value order).runFirst := by
  have hleaf : ∀ {V : ValueType} {p : Parser false V}, Total State.Valid p.run →
      Total (· = st) p.run := fun hp t ht => hp t (ht ▸ hv)
  induction order with
  | nil => exact fun _ _ => rfl
  | cons a order ih =>
    cases a with
    | null => exact total_alternative _ (hleaf (total_literalConstant mem _ _)) ih
    | boolean => exact total_alternative _ (hleaf (total_boolParser mem)) ih
    | number => exact total_alternative _ (hleaf (total_charconv mem fc)) ih
    | string => exact total_alternative _ (hleaf (total_parseStringView mem)) ih
    | array => exact total_alternative _ (total_array hv h ht) ih
    | object => exact total_alternative _ (total_object hv h ht) ih

theorem approx_alternativesIn (hv : st.Valid) (h : Approx st.Below st.Below value.run value'.run) :
    Approx (· = st) State.Valid (alternativesIn mem fc value order).runFirst
      (alternativesIn mem fc value' order).runFirst := by
  have hleaf : ∀ {V : ValueType} {p : Parser false V}, Takes 0 p.run →
      Approx (· = st) State.Valid p.run p.run :=
    fun hp => hp.keeps.approx.mono (fun t ht => ht ▸ hv) fun _ h => h
  have hbelow : ∀ {V : ValueType} {p p' : Parser false V}, Approx (· = st) st.Below p.run p'.run →
      Approx (· = st) State.Valid p.run p'.run :=
    fun hp => hp.mono (fun _ h => h) fun t ht => ht.1.valid
  induction order with
  | nil => exact Keeps.approx fun _ _ _ _ hr => by cases hr
  | cons a order ih =>
    cases a with
    | null => exact approx_alternative _ (hleaf (takes_literalConstant mem _ _)) ih
    | boolean => exact approx_alternative _ (hleaf (takes_boolParser mem)) ih
    | number => exact approx_alternative _ (hleaf (takes_charconv mem fc)) ih
    | string => exact approx_alternative _ (hleaf (takes_parseStringView mem)) ih
    | array => exact approx_alternative _ (hbelow (approx_array hv h)) ih
    | object => exact approx_alternative _ (hbelow (approx_object hv h)) ih

end

theorem guarded_valueOfIn [Inhabited N] (mem : Memory) (fc : FromChars (double N))
    (order : List JsonAlternative) : Guarded State.Valid (valueOfIn mem fc order) where
  suffixReturning value h :=
    takes_zero.1 (takes_either (takes_alternativesIn fc order (takes_zero.2 h)))
  terminates value st h hv ht :=
    total_either (total_alternativesIn fc order hv (takes_zero.2 h) ht) st rfl
  depends value value' st h h' hv hle o ho := by
    have happrox : Approx st.Below st.Below value.run value'.run := by
      intro t o ht hr
      refine ⟨hle t o ht hr, ?_⟩
      rintro ⟨t', v⟩ rfl
      exact (takes_zero.2 h).keeps_below st t t' v ht hr
    exact (approx_either (approx_alternativesIn fc order hv happrox) st o rfl ho).1

theorem guarded_valueOf [Inhabited N] (mem : Memory) (fc : FromChars (double N)) :
    Guarded State.Valid (valueOf mem fc) := guarded_valueOfIn mem fc JsonAlternative.all

/-- `recurse` of a guarded function ends on every valid non-null state, is the one fixpoint of the
function that returns suffixes, and its two implementations agree. `parse_value` is the recursion of
such a function, so it ends on every input. -/
theorem recurse_guarded [Inhabited N] {T : ValueType} {g : Bool} {func : Parser false T → Parser g T}
    (h : Guarded NonNullValid func) (hst : NonNullValid st) (mem : Memory)
    (fc : FromChars (double N)) :
    ((recurse func).parse st).isSome ∧
    (recurse func).run st = (func (recurse func)).run st ∧
    (recurse func).SuffixReturning ∧
    (∀ q : Parser false T, q.SuffixReturning →
      (∀ t, NonNullValid t → q.run t = (func q).run t) → q.run st = (recurse func).run st) ∧
    (recurse func).parse st = (recurseConstant func).parse st ∧
    Guarded State.Valid (valueOf mem fc) ∧
    ∀ st : State, st.Valid → ((parseValue mem fc).parse st).isSome := by
  have hD := suffixClosed_nonNullValid
  have hjson := guarded_valueOf mem fc
  refine ⟨?_, h.recurse_unfold hD hst hst.2, h.suffixReturning_recurse, fun q hq hfix => ?_, ?_, hjson,
    fun st hv => ?_⟩
  · have hsome := h.isSome_recurse hD hst
    rwa [Parser.run, Option.isSome_map] at hsome
  · exact h.recurse_unique hD hq (fun t ht _ => hfix t ht) hst hst.2
  · rw [recurse_eq]
  · have hsome := hjson.isSome_recurse suffixClosed_valid hv
    rwa [Parser.run, Option.isSome_map, recurse_eq] at hsome

/-- `parse_value` on `[null]`, where no number is read. -/
theorem recurse_guarded_null :
    let mem := Memory.ofText [ch '[', ch 'n', ch 'u', ch 'l', ch 'l', ch ']']
    let fc : FromChars (double Unit) := ⟨fun _ => none, fun h => by cases h⟩
    ((recurse (valueOf mem fc)).parse ⟨1, 7⟩).isSome ∧
      (recurse (valueOf mem fc)).run ⟨1, 7⟩ = (valueOf mem fc (recurse (valueOf mem fc))).run ⟨1, 7⟩ := by
  intro mem fc
  have hguard := (guarded_valueOf mem fc).mono (E := NonNullValid) fun _ h => h.1
  have h := recurse_guarded hguard (show NonNullValid ⟨1, 7⟩ from ⟨by decide, rfl⟩) mem fc
  exact ⟨h.1, h.2.1⟩

end Noam
