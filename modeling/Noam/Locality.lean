import Noam.Language

/-!
# Copies of an input

The outcome of a parse depends on the characters of its input, and on those of the prefixes that
`test_prefix` and `require_prefix` are given: a copy of the input in another place and another memory, null
exactly if the input is, is parsed alike. So what follows an input in memory has no part in the outcome.
This is about the intrinsics of `Intrinsic`; `parse_string` may look at the byte behind its input.
-/

namespace Noam
open GetResult ValueType Loop Attempt

variable {V W T : ValueType} {g : Bool} {gs : List Bool} {Vs Γ : List ValueType}
variable {mem mem' : Memory} {R : State → State → Prop} {s t : State}

/-! ### Prefixes -/

/-- The prefix of `test_prefix` and `require_prefix` has the same characters in both memories. -/
def Intrinsic.SamePrefix (mem mem' : Memory) : {g : Bool} → {V : ValueType} → Intrinsic g V → Prop
  | _, _, testPrefix pre _ => pre.text mem = pre.text mem'
  | _, _, requirePrefix pre _ => pre.text mem = pre.text mem'
  | _, _, _ => True

section
variable (mem mem' : Memory)

mutual

/-- So have all the prefixes that an expression is made with. -/
def Expr.SamePrefixes : {Γ : List ValueType} → {g : Bool} → {V : ValueType} → Expr Γ g V → Prop
  | _, _, _, .var _ => True
  | _, _, _, .intrinsic i => i.SamePrefix mem mem'
  | _, _, _, .map _ p => p.SamePrefixes
  | _, _, _, .shiftRight p1 p2 => p1.SamePrefixes ∧ p2.SamePrefixes
  | _, _, _, .enclose pre par post => pre.SamePrefixes ∧ par.SamePrefixes ∧ post.SamePrefixes
  | _, _, _, .match_ ps => ps.SamePrefixes
  | _, _, _, .join ps p => ps.SamePrefixes ∧ p.SamePrefixes
  | _, _, _, .either ps => ps.SamePrefixes
  | _, _, _, .make _ ps => ps.SamePrefixes
  | _, _, _, .makeVariadic _ ps => ps.SamePrefixes
  | _, _, _, .makeWCoro _ ps => ps.SamePrefixes
  | _, _, _, .testThen p _ => p.SamePrefixes
  | _, _, _, .test p => p.SamePrefixes
  | _, _, _, .testLookahead p => p.SamePrefixes
  | _, _, _, .lookahead p => p.SamePrefixes
  | _, _, _, .tryParse p => p.SamePrefixes
  | _, _, _, .tryLookahead p => p.SamePrefixes
  | _, _, _, .foldLeft initial rest _ => initial.SamePrefixes ∧ rest.SamePrefixes
  | _, _, _, .sequenceSep _ elem => elem.SamePrefixes
  | _, _, _, .sequenceEnclosed _ _ _ elem => elem.SamePrefixes
  | _, _, _, .sequence elem sep => elem.SamePrefixes ∧ sep.SamePrefixes
  | _, _, _, @Expr.parseMap _ _ _ _ _ _ _ _ _ _ _ key val => key.SamePrefixes ∧ val.SamePrefixes
  | _, _, _, .recurse body => body.SamePrefixes
  | _, _, _, .recurseConstant body => body.SamePrefixes

def Exprs.SamePrefixes : {Γ : List ValueType} → {gs : List Bool} → {Vs : List ValueType} →
    Exprs Γ gs Vs → Prop
  | _, _, _, .nil => True
  | _, _, _, .cons p ps => p.SamePrefixes ∧ ps.SamePrefixes

def Choices.SamePrefixes : {Γ : List ValueType} → {W : ValueType} → {gs : List Bool} →
    Choices Γ W gs → Prop
  | _, _, _, .nil => True
  | _, _, _, .cons p _ ps => p.SamePrefixes ∧ ps.SamePrefixes

end

end

/-! ### One text in two memories -/

/-- Related states have one text, each in its memory, and so have the states after as many characters
of it. -/
structure CopyRel (mem mem' : Memory) (R : State → State → Prop) : Prop where
  good : ∀ s t, R s t → s.good = t.good
  valid : ∀ s t, R s t → s.Valid ∧ t.Valid
  text : ∀ s t, R s t → s.text mem = t.text mem'
  removePrefix : ∀ s t n, R s t → n ≤ (s.text mem).length → R (s.removePrefix n) (t.removePrefix n)

namespace CopyRel
variable (hR : CopyRel mem mem' R)
include hR

theorem kept (g : Bool) : KeptAlike R g g := keptAlike_refl hR.good g

/-- Parsers that do the same with a text. -/
theorem reads {p p' : Parser g V} {F : OnText V} (h : p.Reads mem F) (h' : p'.Reads mem' F) :
    p.Rel R p' := by
  intro s t hst
  obtain ⟨hs, ht⟩ := hR.valid s t hst
  rw [h.parse_eq s hs, h'.parse_eq t ht, ← hR.text s t hst]
  rcases hF : F (s.text mem) with _ | _ | ⟨n, v⟩
  · exact .none
  · cases g
    · exact .some rel_failed
    · exact .none
  · have hn := hR.removePrefix s t n hst (h.le_length hF)
    rw [Option.bind_some, Option.bind_some, Option.map_some, Option.map_some, ofOutcome_some,
      ofOutcome_some]
    exact .some (rel_of (hR.kept g) hn v)

theorem literal (lits : List AnyLiteral) : (Noam.literal mem lits).Rel R (Noam.literal mem' lits) :=
  hR.reads (literal_reads lits) (literal_reads lits)

theorem whitespace : (Noam.whitespace mem).Rel R (Noam.whitespace mem') :=
  hR.reads (zeroOrMoreChars_reads whitespaceChars) (zeroOrMoreChars_reads whitespaceChars)

theorem separator (sep : List AnyLiteral) :
    (Noam.separator mem sep).Rel R (Noam.separator mem' sep) :=
  match_rel (hR.kept _) (.cons hR.whitespace (.cons (hR.literal _) (.cons hR.whitespace .nil)))

theorem openParser (opening : AnyLiteral) :
    (Noam.openParser mem opening).Rel R (Noam.openParser mem' opening) :=
  match_rel (hR.kept _) (.cons (hR.literal _) (.cons hR.whitespace .nil))

theorem closeParser (closing : AnyLiteral) :
    (Noam.closeParser mem closing).Rel R (Noam.closeParser mem' closing) :=
  match_rel (hR.kept _) (.cons hR.whitespace (.cons (hR.literal _) .nil))

theorem intrinsic : {g : Bool} → {V : ValueType} → (i : Intrinsic g V) → i.SamePrefix mem mem' →
    (i.parser mem).Rel R (i.parser mem')
  | _, _, .pure value, _ => hR.reads (pureParser_reads value) (pureParser_reads value)
  | _, _, .charconv fc, _ => hR.reads (charconv_reads fc) (charconv_reads fc)
  | _, _, .literal lits, _ => hR.literal lits
  | _, _, .literalMakes _ h lits, _ => hR.reads (literalMakes_reads _ h lits) (literalMakes_reads _ h lits)
  | _, _, .literalConstant v lits, _ => hR.reads (literalConstant_reads v lits) (literalConstant_reads v lits)
  | _, _, .matchChs chars, _ => hR.reads (zeroOrMoreChars_reads chars) (zeroOrMoreChars_reads chars)
  | _, _, .countCh chars, _ => hR.reads (countChars_reads chars) (countChars_reads chars)
  | _, _, .whitespace, _ => hR.whitespace
  | _, _, .separator sep, _ => hR.separator sep
  | _, _, .parseBool, _ => hR.reads boolParser_reads boolParser_reads
  | _, _, .parseLine, _ => hR.reads lineParser_reads lineParser_reads
  | _, _, .viewParser begin_ end_ escape, _ =>
    hR.reads (viewParser_reads begin_ end_ escape) (viewParser_reads begin_ end_ escape)
  | _, _, .testPrefix pre h, hp => by
    have htest : (Noam.testPrefix mem' pre).Reads mem' (testPrefixText (pre.text mem')) := testPrefix_reads h
    rw [← show pre.text mem = pre.text mem' from hp] at htest
    exact hR.reads (testPrefix_reads h) htest
  | _, _, .requirePrefix pre h, hp => by
    have hreq : requirePrefixText pre mem = requirePrefixText pre mem' := by
      unfold requirePrefixText
      rw [show pre.text mem = pre.text mem' from hp]
    exact hR.reads (requirePrefix_reads h) (hreq ▸ requirePrefix_reads h)

variable {g' : Bool} {p p' : Parser g V} {q q' : Parser g' W}

theorem sequenceSep (sep : AnyLiteral) (h : p.Rel R p') :
    (Noam.sequenceSep mem sep p).Rel R (Noam.sequenceSep mem' sep p') :=
  sequence_rel h (hR.separator [sep])

theorem bracketed {X : Type} {A A' : Attempt State V} {push : X → V → X} {x : X}
    (opening sep closing : AnyLiteral) (h : Attempt.Rel R R Eq A A') :
    Attempt.Rel R R Eq
      (bind (Noam.openParser mem opening).run fun _ =>
        bind (sepBy (Noam.separator mem [sep]).run A push x) fun y =>
          Attempt.map (fun _ => y) (Noam.closeParser mem closing).run)
      (bind (Noam.openParser mem' opening).run fun _ =>
        bind (sepBy (Noam.separator mem' [sep]).run A' push x) fun y =>
          Attempt.map (fun _ => y) (Noam.closeParser mem' closing).run) := by
  refine rel_bind (hR.openParser opening).run fun _ _ _ =>
    rel_bind (rel_sepBy_same _ _ (hR.separator [sep]).run h) fun y y' hy => ?_
  subst hy
  exact rel_map (hR.closeParser closing).run fun _ _ _ => rfl

theorem sequenceEnclosed (opening sep closing : AnyLiteral) (h : p.Rel R p') :
    (Noam.sequenceEnclosed mem opening sep closing p).Rel R
      (Noam.sequenceEnclosed mem' opening sep closing p') := by
  rw [sequenceEnclosed_eq, sequenceEnclosed_eq]
  exact rel_ofAttempt (hR.kept _) (hR.bracketed opening sep closing h.run) (by simp) (by simp)

theorem makePair (sep : AnyLiteral) (h : p.Rel R p') (hq : q.Rel R q') :
    (Noam.makePair mem sep p q).Rel R (Noam.makePair mem' sep p' q') :=
  makeVariadic_rel _ (hR.kept _)
    (.cons h (.cons (join_rel (hR.kept _) (hR.kept _) (.cons (hR.separator [sep]) .nil) hq) .nil))

theorem parseMap (M : Type) [EmplaceMap M V W] (opening elemSep keyValueSep closing : AnyLiteral)
    (h : p.Rel R p') (hq : q.Rel R q') :
    (Noam.parseMap mem M opening elemSep keyValueSep closing p q).Rel R
      (Noam.parseMap mem' M opening elemSep keyValueSep closing p' q') := by
  rw [parseMap_eq, parseMap_eq]
  exact rel_ofAttempt (hR.kept _)
    (hR.bracketed opening elemSep closing (hR.makePair keyValueSep h hq).run) (by simp) (by simp)

end CopyRel

section
-- the lists of expressions use the hypotheses only through the expressions in them
set_option linter.unusedSectionVars false
variable (hR : CopyRel mem mem' R)
include hR

mutual

theorem Expr.eval_copyRel : {Γ : List ValueType} → {g : Bool} → {V : ValueType} → (e : Expr Γ g V) →
    {env env' : Env Γ} → e.SamePrefixes mem mem' → Env.Rel R env env' →
    (e.eval mem env).Rel R (e.eval mem' env')
  | _, _, _, .var x, _, _, _, h => h x
  | _, _, _, .intrinsic i, _, _, hp, _ => hR.intrinsic i hp
  | _, _, _, .map func p, _, _, hp, h => map_rel (hR.kept _) func (p.eval_copyRel hp h)
  | _, _, _, .shiftRight p1 p2, _, _, hp, h =>
    shiftRight_rel (hR.kept _) (p1.eval_copyRel hp.1 h) (p2.eval_copyRel hp.2 h)
  | _, _, _, .enclose pre par post, _, _, hp, h =>
    enclose_rel (hR.kept _) (pre.eval_copyRel hp.1 h) (par.eval_copyRel hp.2.1 h) (post.eval_copyRel hp.2.2 h)
  | _, _, _, .match_ ps, _, _, hp, h => match_rel (hR.kept _) (ps.eval_copyRel hp h)
  | _, _, _, .join ps p, _, _, hp, h =>
    join_rel (hR.kept _) (hR.kept _) (ps.eval_copyRel hp.1 h) (p.eval_copyRel hp.2 h)
  | _, _, _, .either ps, _, _, hp, h => either_rel (hR.kept _) (ps.eval_copyRel hp h)
  | _, _, _, .make construct ps, _, _, hp, h => make_rel construct (hR.kept _) (ps.eval_copyRel hp h)
  | _, _, _, .makeVariadic construct ps, _, _, hp, h =>
    makeVariadic_rel construct (hR.kept _) (ps.eval_copyRel hp h)
  | _, _, _, .makeWCoro construct ps, _, _, hp, h =>
    makeWCoro_rel construct (hR.kept _) (ps.eval_copyRel hp h)
  | _, _, _, .testThen p func, _, _, hp, h => testThen_rel func (p.eval_copyRel hp h)
  | _, _, _, .test p, _, _, hp, h => test_rel (p.eval_copyRel hp h)
  | _, _, _, .testLookahead p, _, _, hp, h => test_rel (p.eval_copyRel hp h)
  | _, _, _, .lookahead p, _, _, hp, h => lookahead_rel (hR.kept _) (p.eval_copyRel hp h)
  | _, _, _, .tryParse p, _, _, hp, h => tryParse_rel (p.eval_copyRel hp h)
  | _, _, _, .tryLookahead p, _, _, hp, h => tryLookahead_rel (p.eval_copyRel hp h)
  | _, _, _, .foldLeft initial rest op, _, _, hp, h =>
    foldLeft_rel op (hR.kept _) (initial.eval_copyRel hp.1 h) (rest.eval_copyRel hp.2 h)
  | _, _, _, .sequenceSep sep elem, _, _, hp, h => hR.sequenceSep sep (elem.eval_copyRel hp h)
  | _, _, _, .sequenceEnclosed opening sep closing elem, _, _, hp, h =>
    hR.sequenceEnclosed opening sep closing (elem.eval_copyRel hp h)
  | _, _, _, .sequence elem sep, _, _, hp, h => sequence_rel (elem.eval_copyRel hp.1 h) (sep.eval_copyRel hp.2 h)
  | _, _, _, @Expr.parseMap _ _ _ _ _ M _ opening elemSep keyValueSep closing key val, _, _, hp, h =>
    hR.parseMap M opening elemSep keyValueSep closing (key.eval_copyRel hp.1 h) (val.eval_copyRel hp.2 h)
  | _, _, _, .recurse body, _, _, hp, h =>
    recurse_rel (hR.kept _) fun _ _ hq => body.eval_copyRel hp (h.cons hq)
  | _, _, _, .recurseConstant body, _, _, hp, h =>
    recurseConstant_rel (hR.kept _) fun _ _ hq => body.eval_copyRel hp (h.cons hq)

theorem Exprs.eval_copyRel : {Γ : List ValueType} → {gs : List Bool} → {Vs : List ValueType} →
    (es : Exprs Γ gs Vs) → {env env' : Env Γ} → es.SamePrefixes mem mem' → Env.Rel R env env' →
    (es.eval mem env).Rel R (es.eval mem' env')
  | _, _, _, .nil, _, _, _, _ => .nil
  | _, _, _, .cons p ps, _, _, hp, h => .cons (p.eval_copyRel hp.1 h) (ps.eval_copyRel hp.2 h)

theorem Choices.eval_copyRel : {Γ : List ValueType} → {W : ValueType} → {gs : List Bool} →
    (es : Choices Γ W gs) → {env env' : Env Γ} → es.SamePrefixes mem mem' → Env.Rel R env env' →
    (es.eval mem env).Rel R (es.eval mem' env')
  | _, _, _, .nil, _, _, _, _ => .nil
  | _, _, _, .cons p conv ps, _, _, hp, h => .cons conv (p.eval_copyRel hp.1 h) (ps.eval_copyRel hp.2 h)

end

end

/-! ### Copies -/

/-- As many characters into `s` as into `t`. -/
def Alongside (mem : Memory) (s t s' t' : State) : Prop :=
  ∃ n ≤ (s.text mem).length, s' = s.removePrefix n ∧ t' = t.removePrefix n

theorem copyRel_alongside (hs : s.Valid) (ht : t.Valid) (htext : s.text mem = t.text mem')
    (hgood : s.good = t.good) : CopyRel mem mem' (Alongside mem s t) where
  good := by
    rintro _ _ ⟨n, -, rfl, rfl⟩
    exact State.good_removePrefix_eq hgood n
  valid := by
    rintro _ _ ⟨n, hn, rfl, rfl⟩
    exact ⟨(State.suffix_removePrefix hn hs).valid, (State.suffix_removePrefix (htext ▸ hn) ht).valid⟩
  text := by
    rintro _ _ ⟨n, -, rfl, rfl⟩
    rw [State.text_removePrefix, State.text_removePrefix, htext]
  removePrefix := by
    rintro _ _ m ⟨n, hn, rfl, rfl⟩ hm
    rw [State.text_removePrefix, List.length_drop] at hm
    exact ⟨n + m, by omega, State.removePrefix_removePrefix n m, State.removePrefix_removePrefix n m⟩

/-- Two views of one text, each in its own memory and both null or both not, are parsed alike by an expression
whose prefixes are the same in both: the results are equally good, have the same value, and leave off after
as many characters. -/
theorem eval_copy (e : Expr [] g V) (hp : e.SamePrefixes mem mem') (hs : s.Valid) (ht : t.Valid)
    (htext : s.text mem = t.text mem') (hgood : s.good = t.good) :
    Option.Rel (fun r r' => r.toBool = r'.toBool ∧ r.getValue? = r'.getValue? ∧
        (r.toBool = true → ∃ n ≤ (s.text mem).length, r.getState = s.removePrefix n ∧
          r'.getState = t.removePrefix n))
      ((e.eval mem Env.nil).parse s) ((e.eval mem' Env.nil).parse t) := by
  have hrel := e.eval_copyRel (copyRel_alongside hs ht htext hgood) hp Env.rel_nil s t
    ⟨0, Nat.zero_le _, rfl, rfl⟩
  exact Loop.rel_mono (fun r r' hr => ⟨hr.toBool, hr.value, fun hb => hr.state hb⟩) hrel

/-- `(true`, in a view that ends there and in one that another memory goes on after, fails; and `(true)` with
a character behind it succeeds in both memories. -/
theorem eval_copy_parenthesis :
    let mem := Memory.ofText [ch '(', ch 't', ch 'r', ch 'u', ch 'e', ch ')', ch 'x']
    let mem' := Memory.ofText [ch ' ', ch '(', ch 't', ch 'r', ch 'u', ch 'e', ch ')', ch 'x']
    let e : Expr [] false bool := .enclose (.intrinsic (.literal [.charLiteral (ch '(')]))
      (.intrinsic .parseBool) (.intrinsic (.literal [.charLiteral (ch ')')]))
    ((e.eval mem Env.nil).parse ⟨1, 6⟩ = some Result.failed ∧
      ∃ r : GetResult bool false, (e.eval mem' Env.nil).parse ⟨2, 7⟩ = some r ∧ r.toBool = false) ∧
    (e.eval mem Env.nil).parse ⟨1, 8⟩ = some (Result.of ⟨7, 8⟩ true) ∧
      ∃ r : GetResult bool false, (e.eval mem' Env.nil).parse ⟨2, 9⟩ = some r ∧ r.toBool = true ∧
        r.getValue? = some true ∧ r.getState = ⟨8, 9⟩ := by
  intro mem mem' e
  have hcopy : ∀ {s t : State}, s.Valid → t.Valid → s.text mem = t.text mem' → s.good = t.good →
      Option.Rel _ ((e.eval mem Env.nil).parse s) ((e.eval mem' Env.nil).parse t) :=
    eval_copy e ⟨trivial, trivial, trivial⟩
  constructor
  · have h := @hcopy ⟨1, 6⟩ ⟨2, 7⟩ (by decide) (by decide) rfl rfl
    have hrun : (e.eval mem Env.nil).parse ⟨1, 6⟩ = some Result.failed := rfl
    rw [hrun] at h
    obtain ⟨r, hr⟩ : ∃ r, (e.eval mem' Env.nil).parse ⟨2, 7⟩ = some r := ⟨_, rfl⟩
    rw [hr] at h
    obtain ⟨hb, -⟩ := Option.rel_some_some.1 h
    exact ⟨hrun, r, hr, hb.symm⟩
  · have h := @hcopy ⟨1, 8⟩ ⟨2, 9⟩ (by decide) (by decide) rfl rfl
    have hrun : (e.eval mem Env.nil).parse ⟨1, 8⟩ = some (Result.of ⟨7, 8⟩ true) := rfl
    rw [hrun] at h
    obtain ⟨r, hr⟩ : ∃ r, (e.eval mem' Env.nil).parse ⟨2, 9⟩ = some r := ⟨_, rfl⟩
    rw [hr] at h
    obtain ⟨hb, hv, hst⟩ := Option.rel_some_some.1 h
    obtain ⟨n, -, hn, hr'⟩ := hst rfl
    have hn : n = 6 := by
      have hbegin : 7 = 1 + n := congrArg State._begin hn
      omega
    exact ⟨hrun, r, hr, hb.symm, hv.symm, by rw [hr', hn]; rfl⟩

end Noam
