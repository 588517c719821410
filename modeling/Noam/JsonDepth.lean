import Noam.Endings
import Noam.Termination

/-!
# How deep `parse_value` nests its calls

`parse_value` calls itself behind an opening bracket or brace only. So its calls nest at most one deeper
than there are such characters in the text, and for any number of brackets there is a text that needs as
many: nothing but the input bounds the stack that `parse_value` takes.
-/

namespace Noam
open GetResult ValueType Loop Attempt

variable {N : Type} {mem : Memory} {st t : State} {value : Parser false (jsonValue N)}
variable {text : List UInt8} {n : Nat}

/-- A character that opens an array or an object. -/
def opens (c : UInt8) : Bool := c = ch '[' || c = ch '{'

/-- How many such characters a text has. -/
def openings (text : List UInt8) : Nat := text.countP opens

/-- Behind the first character of a text that opens an array or an object there are fewer of them. -/
theorem openings_lt {c : UInt8} (hc : opens c = true) (htext : st.text mem = c :: text)
    (ht : st.Below t) : openings (t.text mem) < openings (st.text mem) := by
  obtain ⟨k, hk⟩ : ∃ k, t._begin - st._begin = k + 1 := ⟨t._begin - st._begin - 1, by
    have := ht.2
    omega⟩
  have hsub : openings (t.text mem) ≤ openings text := by
    rw [ht.1.eq_removePrefix, State.text_removePrefix, htext, hk, List.drop_succ_cons]
    exact (List.drop_sublist k text).countP_le
  have hcons : openings (c :: text) = openings text + 1 := List.countP_cons_of_pos hc
  rw [htext, hcons]
  exact Nat.lt_succ_of_le hsub

/-! ### Texts that open nothing -/

theorem run_literal_fail {lit : AnyLiteral} (hv : st.Valid)
    (h : lit.text.isPrefixOf (st.text mem) = false) : (literal mem [lit]).run st = some none := by
  rw [(literal_reads [lit]).run_eq hv, literalText, AnyLiteral.firstPrefix, List.find?_cons, h]
  rfl

theorem run_match_fail {gs : List Bool} {Vs : List ValueType} {ps : Parsers gs Vs}
    (hg : gs.all id = false) (h : ps.runAll st = some none) : (match_ ps).run st = some none := by
  rw [match_eq, run_ofAttempt, Attempt.map, bind_fail h, Option.bind_some, hg]
  rfl

theorem run_match_some {gs : List Bool} {Vs : List ValueType} {ps : Parsers gs Vs} {vs : ValuesOf Vs}
    (h : ps.runAll st = some (some (t, vs))) (ht : t.good = true) :
    (match_ ps).run st = some (some (t, ())) := by
  rw [match_eq, run_ofAttempt, Attempt.map, bind_some h]
  exact settle_of_good (V := empty) ht ()

theorem run_openParser_fail {opening : AnyLiteral} (hv : st.Valid)
    (h : opening.text.isPrefixOf (st.text mem) = false) :
    (openParser mem opening).run st = some none :=
  run_match_fail rfl (bind_fail (run_literal_fail hv h))

theorem isPrefixOf_charLiteral {c : UInt8} (h : ∀ d u, text = d :: u → d ≠ c) :
    (AnyLiteral.charLiteral c).text.isPrefixOf text = false := by
  cases text with
  | nil => rfl
  | cons d u =>
    have hd : c ≠ d := (h d u rfl).symm
    simp [AnyLiteral.text, List.isPrefixOf, hd]

theorem run_array_fail (hv : st.Valid) (h : ∀ c u, st.text mem = c :: u → c ≠ ch '[') :
    (sequenceCommas mem (.charLiteral (ch '[')) (.charLiteral (ch ']')) value).run st = some none := by
  rw [sequenceCommas, sequenceEnclosed_eq, run_ofAttempt,
    bind_fail (run_openParser_fail hv (isPrefixOf_charLiteral h))]
  rfl

theorem run_object_fail (hv : st.Valid) (h : ∀ c u, st.text mem = c :: u → c ≠ ch '{') :
    (parseMapBraces mem (JsonObject N) (parseStringView mem) value).run st = some none := by
  rw [parseMapBraces, parseMap_eq, run_ofAttempt,
    bind_fail (run_openParser_fail hv (isPrefixOf_charLiteral h))]
  rfl

/-- A value that opens nothing is parsed without another call. -/
theorem isSome_valueOf_of_not_opens [Inhabited N] (mem : Memory) (fc : FromChars (double N))
    (value : Parser false (jsonValue N)) (hv : st.Valid)
    (h : ∀ c u, st.text mem = c :: u → opens c = false) : ((valueOf mem fc value).run st).isSome := by
  have harray : ∀ c u, st.text mem = c :: u → c ≠ ch '[' := by
    rintro c u htext rfl
    exact absurd (h _ u htext) (by decide)
  have hobject : ∀ c u, st.text mem = c :: u → c ≠ ch '{' := by
    rintro c u htext rfl
    exact absurd (h _ u htext) (by decide)
  have hleaf : ∀ {V : ValueType} {p : Parser false V}, Total State.Valid p.run → Total (· = st) p.run :=
    fun hp => total_self (hp st hv)
  have hall : Total (· = st) (valueAlternatives mem fc value).runFirst := by
    refine total_alternative _ (hleaf (total_literalConstant mem _ _)) ?_
    refine total_alternative _ (hleaf (total_boolParser mem)) ?_
    refine total_alternative _ (hleaf (total_charconv mem fc)) ?_
    refine total_alternative _ (hleaf (total_parseStringView mem)) ?_
    refine total_alternative _ (total_self (by rw [run_array_fail hv harray]; rfl)) ?_
    exact total_alternative _ (total_self (by rw [run_object_fail hv hobject]; rfl)) fun _ _ => rfl
  exact total_either hall st rfl

/-! ### Depths that are enough, and depths that are not -/

/-- One call, and one more for each character that opens something. -/
theorem isSome_within_openings [Inhabited N] (mem : Memory) (fc : FromChars (double N)) (hv : st.Valid)
    (hn : openings (st.text mem) < n) :
    ((recurseConstantWithin (valueOf mem fc) n).run st).isSome := by
  have hguard := guarded_valueOf mem fc
  induction n generalizing st with
  | zero => omega
  | succ n ih =>
    rw [recurseConstantWithin_succ, isSome_run_toFallible]
    by_cases h : ∀ c u, st.text mem = c :: u → opens c = false
    · exact isSome_valueOf_of_not_opens mem fc _ hv h
    · push Not at h
      obtain ⟨c, u, htext, hc⟩ := h
      refine hguard.terminates _ st (hguard.suffixReturning_within n) hv fun t ht => ih ht.1.valid ?_
      have := openings_lt (by simpa using hc) htext ht
      omega

theorem run_open_array (hst : st.Live) (htext : st.text mem = ch '[' :: text) :
    (openParser mem (.charLiteral (ch '['))).run st = some (some
      ((st.removePrefix 1).removePrefix (runLength whitespaceChars text), ())) := by
  have hlen : 1 ≤ (st.text mem).length := by rw [htext]; simp
  have hv : (st.removePrefix 1).Valid := (State.suffix_removePrefix hlen hst.valid).valid
  have hgood : (st.removePrefix 1).good = true := State.good_removePrefix hst.good 1
  have hlit : (literal mem [.charLiteral (ch '[')]).run st = some (some (st.removePrefix 1, ())) :=
    (literal_reads _).run_of_good hst.valid hst.good (by rw [htext]; rfl)
  have htail : (st.removePrefix 1).text mem = text := by
    rw [State.text_removePrefix, htext]; rfl
  have hws : (whitespace mem).run (st.removePrefix 1) = some (some
      ((st.removePrefix 1).removePrefix (runLength whitespaceChars text), ())) :=
    (zeroOrMoreChars_reads whitespaceChars).run_of_good hv hgood (by rw [htail]; rfl)
  have hall : (Parsers.cons (literal mem [.charLiteral (ch '[')]) (.cons (whitespace mem) .nil)).runAll st =
      some (some ((st.removePrefix 1).removePrefix (runLength whitespaceChars text), ((), (), ()))) :=
    (bind_some hlit).trans (bind_some ((bind_some hws).trans rfl))
  exact run_match_some hall (State.good_removePrefix hgood _)

theorem run_array_none (hst : st.Live) (htext : st.text mem = ch '[' :: text)
    (h : value.run ((st.removePrefix 1).removePrefix (runLength whitespaceChars text)) = none) :
    (sequenceCommas mem (.charLiteral (ch '[')) (.charLiteral (ch ']')) value).run st = none := by
  have helems : sepBy (separator mem [.charLiteral (ch ',')]).run value.run pushBack []
      ((st.removePrefix 1).removePrefix (runLength whitespaceChars text)) = none :=
    orElse_none (bind_none h)
  rw [sequenceCommas, sequenceEnclosed_eq, run_ofAttempt, bind_some (run_open_array hst htext),
    bind_none helems]
  rfl

theorem run_valueOf_none [Inhabited N] {fc : FromChars (double N)} (hst : st.Live)
    (hfc : fc.fromChars (ch '[' :: text) = none) (htext : st.text mem = ch '[' :: text)
    (h : value.run ((st.removePrefix 1).removePrefix (runLength whitespaceChars text)) = none) :
    (valueOf mem fc value).run st = none := by
  have hnull : (literalConstant mem (V := nullptr) () [nullLiteral]).run st = some none := by
    rw [(literalConstant_reads _ _).run_eq hst.valid, htext]; rfl
  have hbool : (boolParser mem).run st = some none := by
    rw [boolParser_reads.run_eq hst.valid, htext]; rfl
  have hnumber : (charconv mem fc).run st = some none := by
    rw [(charconv_reads fc).run_eq hst.valid, htext, hfc]; rfl
  have hstring : (parseStringView mem).run st = some none := by
    rw [parseStringView, (viewParser_reads _ _ _).run_eq hst.valid, htext]; rfl
  have harray := run_array_none hst htext h
  have hfirst : (valueAlternatives mem fc value).runFirst st = none := by
    refine (orElse_fail (bind_fail hnull)).trans ?_
    refine (orElse_fail (bind_fail hbool)).trans ?_
    refine (orElse_fail (bind_fail hnumber)).trans ?_
    refine (orElse_fail (bind_fail hstring)).trans ?_
    exact orElse_none (bind_none harray)
  have hrun : (valueOf mem fc value).run st = _ := congrFun (run_either (valueAlternatives mem fc value)) st
  rw [hrun, run_ofAttempt, hfirst]
  rfl

theorem run_within_none [Inhabited N] {fc : FromChars (double N)}
    (hfc : ∀ text, fc.fromChars (ch '[' :: text) = none) (hst : st.Live)
    (htext : st.text mem = List.replicate n (ch '[') ++ text) :
    (recurseConstantWithin (valueOf mem fc) n).run st = none := by
  induction n generalizing st with
  | zero => rfl
  | succ n ih =>
    have hcons : st.text mem = ch '[' :: (List.replicate n (ch '[') ++ text) := htext
    have hbelow : (recurseConstantWithin (valueOf mem fc) n).run ((st.removePrefix 1).removePrefix
        (runLength whitespaceChars (List.replicate n (ch '[') ++ text))) = none := by
      cases n with
      | zero => rfl
      | succ n =>
        -- the next character is a bracket, no whitespace
        have hlen : 1 ≤ (st.text mem).length := by rw [hcons]; simp
        have hlive : (st.removePrefix 1).Live := (State.suffix_removePrefix hlen hst.valid).live hst
        refine ih hlive ?_
        rw [State.text_removePrefix, State.text_removePrefix, hcons]
        rfl
    rw [recurseConstantWithin_succ, run_toFallible, run_valueOf_none hst (hfc _) hcons hbelow]
    rfl

/-- `parse_value` nests its calls at most one deeper than the text has characters that open an array or
an object; and on a text that starts with `n` brackets, calls that are nested `n` deep are not enough. -/
theorem parseValue_depth [Inhabited N] (mem : Memory) (fc : FromChars (double N)) (hst : st.Live) :
    (recurseConstantWithin (valueOf mem fc) (1 + openings (st.text mem))).parse st =
        (parseValue mem fc).parse st ∧ ((parseValue mem fc).parse st).isSome ∧
      ((∀ text, fc.fromChars (ch '[' :: text) = none) → ∀ n text,
        st.text mem = List.replicate n (ch '[') ++ text →
          (recurseConstantWithin (valueOf mem fc) n).parse st = none) := by
  have hsome := isSome_within_openings mem fc hst.valid
    (show openings (st.text mem) < 1 + openings (st.text mem) by omega)
  rw [Parser.run, Option.isSome_map] at hsome
  obtain ⟨r, hr⟩ := Option.isSome_iff_exists.1 hsome
  have hcont : ContinuousIn (valueOf mem fc) :=
    (Expr.either (valueChoices fc)).continuousIn mem Env.nil
  have hvalue : (parseValue mem fc).parse st = some r := (hcont.limit_within st).bound _ r hr
  refine ⟨hr.trans hvalue.symm, by rw [hvalue]; rfl, fun hfc n text htext => ?_⟩
  have hnone := run_within_none hfc hst htext
  rwa [Parser.run, Option.map_eq_none_iff] at hnone

/-- Two brackets need three calls. -/
theorem parseValue_depth_brackets :
    let mem := Memory.ofText [ch '[', ch '[']
    let fc : FromChars (double Unit) := ⟨fun _ => none, fun h => by cases h⟩
    (recurseConstantWithin (valueOf mem fc) 3).parse (State.ofLength 2) =
        (parseValue mem fc).parse (State.ofLength 2) ∧
      (recurseConstantWithin (valueOf mem fc) 2).parse (State.ofLength 2) = none := by
  intro mem fc
  have h := parseValue_depth mem fc (State.live_ofLength 2)
  exact ⟨h.1, h.2.2 (fun _ => rfl) 2 [] rfl⟩

end Noam
