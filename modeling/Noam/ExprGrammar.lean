import Noam.Adequacy
import Noam.Endings
import Noam.JsonAccepts
import Noam.Termination

/-!
# The grammar of an expression

What an expression without lookahead, tests and open repetitions says as a grammar over tokens, which are
what the intrinsic parsers read. One parser behind another is concatenation, `either` is a choice without an
order, elements in brackets are a list with any whitespace around its punctuation, and a recursion is the
least grammar of its equation. When alternatives exclude each other and no element starts as a closing
bracket does, the parser that the expression builds accepts exactly this grammar.

The grammar is context-free in its tokens only. A token is read by longest match: `whitespace` never leaves
a blank, so that `whitespace >> literal<' '>` derives nothing.
-/

namespace Noam
open GetResult ValueType Attempt Loop Recognition

variable {T V W : ValueType} {g g' : Bool} {gs : List Bool} {Vs Γ : List ValueType} {mem : Memory}
variable {st : State} {t t' : List UInt8} {α β : Type}

/-! ### Grammars -/

/-- What `F` reads at the start of a text, of all that follows there. -/
def Token (F : OnText V) : Grammar UInt8 V := fun t v t' =>
  ∃ n, F t = some (some (n, v)) ∧ t' = t.drop n

/-- What `G` derives and behind it what `H` derives. -/
def Sequel (G : Grammar UInt8 α) (H : Grammar UInt8 β) : Grammar UInt8 (α × β) := fun t x t'' =>
  ∃ t', G t x.1 t' ∧ H t' x.2 t''

def Mapped (f : α → β) (G : Grammar UInt8 α) : Grammar UInt8 β := fun t b t' => ∃ a, G t a t' ∧ b = f a

/-- A key, a separator and a value. -/
def Entry (sep : AnyLiteral) (K : Grammar UInt8 α) (G : Grammar UInt8 β) : Grammar UInt8 (α × β) :=
  fun t e t' => ∃ t₁ t₂, K t e.1 t₁ ∧ Separates sep t₁ () t₂ ∧ G t₂ e.2 t'

/-- The empty text. -/
def Empty : Grammar UInt8 Unit := fun t _ t' => t' = t

/-- One of the separators with all the whitespace around it. -/
def SeparatorToken (sep : List AnyLiteral) : Grammar UInt8 Unit :=
  Mapped (fun _ => ()) (Sequel (Token (matchChsText whitespaceChars))
    (Sequel (Token (V := empty) (literalText sep ())) (Sequel (Token (matchChsText whitespaceChars)) Empty)))

/-- The tokens of the intrinsic parsers: what the parser itself reads of all that follows, where blanks, the
characters of a class and numbers are read by longest match. -/
def Intrinsic.grammar (mem : Memory) : {g : Bool} → {V : ValueType} → Intrinsic g V → Grammar UInt8 V
  | _, _, pure value => Token (pureText value)
  | _, _, charconv fc => Token fun text => some (fc.fromChars text)
  | _, _, literal lits => Token (V := empty) (literalText lits ())
  | _, _, literalMakes T h lits => Token (literalText lits (T.default?.get h))
  | _, _, literalConstant constant lits => Token (literalText lits constant)
  | _, _, matchChs chars => Token (matchChsText chars)
  | _, _, countCh chars => Token (countChText chars)
  | _, _, whitespace => Token (matchChsText whitespaceChars)
  | _, _, separator sep => SeparatorToken sep
  | _, _, parseBool => Token boolText
  | _, _, parseLine => Token lineText
  | _, _, viewParser begin_ end_ escape => Token (viewText begin_ end_ escape)
  | _, _, testPrefix pre _ => Token (testPrefixText (pre.text mem))
  | _, _, requirePrefix pre _ => Token (requirePrefixText pre mem)

/-- The grammars of the references. -/
def Grammars (Γ : List ValueType) := (T : ValueType) → Var Γ T → Grammar UInt8 T

namespace Grammars

def nil : Grammars [] := fun _ x => nomatch x

def cons (G : Grammar UInt8 T) (ρ : Grammars Γ) : Grammars (T :: Γ)
  | _, .zero => G
  | _, .succ x => ρ _ x

def Le (ρ ρ' : Grammars Γ) : Prop := ∀ (T : ValueType) (x : Var Γ T), ρ T x ≤ ρ' T x

theorem Le.cons {ρ ρ' : Grammars Γ} {G H : Grammar UInt8 T} (h : ρ.Le ρ') (hG : G ≤ H) :
    (ρ.cons G).Le (ρ'.cons H)
  | _, .zero => hG
  | _, .succ x => h _ x

end Grammars

section
variable (mem : Memory)

mutual

/-- What the expression derives. Lookahead, tests and repetitions without a closing bracket take what
follows into account, and derive nothing here. -/
def Expr.grammar : {Γ : List ValueType} → {g : Bool} → {V : ValueType} → Expr Γ g V → Grammars Γ →
    Grammar UInt8 V
  | _, _, _, .var x, ρ => ρ _ x
  | _, _, _, .intrinsic i, _ => i.grammar mem
  | _, _, _, .map func p, ρ => Mapped func (p.grammar ρ)
  | _, _, _, .shiftRight p1 p2, ρ => Mapped Prod.snd (Sequel (p1.grammar ρ) (p2.grammar ρ))
  | _, _, _, .enclose pre par post, ρ =>
    Mapped (fun x => x.2.1) (Sequel (pre.grammar ρ) (Sequel (par.grammar ρ) (post.grammar ρ)))
  | _, _, _, .match_ ps, ρ => Mapped (fun _ => ()) (ps.grammar ρ)
  | _, _, _, .join ps p, ρ => Mapped Prod.snd (Sequel (ps.grammar ρ) (p.grammar ρ))
  | _, _, _, .either ps, ρ => ps.grammar ρ
  | _, _, _, .make construct ps, ρ => Mapped construct (ps.grammar ρ)
  | _, _, _, .makeVariadic construct ps, ρ => Mapped construct (ps.grammar ρ)
  | _, _, _, .makeWCoro construct ps, ρ => Mapped construct (ps.grammar ρ)
  | _, _, _, .sequenceEnclosed opening sep closing elem, ρ => Bracketed opening sep closing (elem.grammar ρ)
  | _, _, _, @Expr.parseMap _ _ _ V W M _ opening elemSep keyValueSep closing key val, ρ =>
    Mapped (fun entries => entries.foldl emplaceEntry (EmplaceMap.empty V W : M))
      (Bracketed opening elemSep closing (Entry keyValueSep (key.grammar ρ) (val.grammar ρ)))
  | _, _, _, .recurse body, ρ => least fun G => body.grammar (ρ.cons G)
  | _, _, _, .recurseConstant body, ρ => least fun G => body.grammar (ρ.cons G)
  | _, _, _, .testThen _ _, _ => ⊥
  | _, _, _, .test _, _ => ⊥
  | _, _, _, .testLookahead _, _ => ⊥
  | _, _, _, .lookahead _, _ => ⊥
  | _, _, _, .tryParse _, _ => ⊥
  | _, _, _, .tryLookahead _, _ => ⊥
  | _, _, _, .foldLeft _ _ _, _ => ⊥
  | _, _, _, .sequenceSep _ _, _ => ⊥
  | _, _, _, .sequence _ _, _ => ⊥

def Exprs.grammar : {Γ : List ValueType} → {gs : List Bool} → {Vs : List ValueType} → Exprs Γ gs Vs →
    Grammars Γ → Grammar UInt8 (ValuesOf Vs)
  | _, _, _, .nil, _ => Empty
  | _, _, _, .cons p ps, ρ => Sequel (p.grammar ρ) (ps.grammar ρ)

def Choices.grammar : {Γ : List ValueType} → {W : ValueType} → {gs : List Bool} → Choices Γ W gs →
    Grammars Γ → Grammar UInt8 W
  | _, _, _, .nil, _ => ⊥
  | _, _, _, .cons p conv ps, ρ => fun t w t' =>
    Mapped conv.apply (p.grammar ρ) t w t' ∨ ps.grammar ρ t w t'

end

mutual

/-- Alternatives exclude each other, brackets and separators can be told apart and from the elements, and
nothing looks at what follows. -/
def Expr.Unambiguous : {Γ : List ValueType} → {g : Bool} → {V : ValueType} → Expr Γ g V → Grammars Γ → Prop
  | _, _, _, .var _, _ => True
  | _, _, _, .intrinsic _, _ => True
  | _, _, _, .map _ p, ρ => p.Unambiguous ρ
  | _, _, _, .shiftRight p1 p2, ρ => p1.Unambiguous ρ ∧ p2.Unambiguous ρ
  | _, _, _, .enclose pre par post, ρ => pre.Unambiguous ρ ∧ par.Unambiguous ρ ∧ post.Unambiguous ρ
  | _, _, _, .match_ ps, ρ => ps.Unambiguous ρ
  | _, _, _, .join ps p, ρ => ps.Unambiguous ρ ∧ p.Unambiguous ρ
  | _, _, _, .either ps, ρ => ps.Unambiguous ρ
  | _, _, _, .make _ ps, ρ => ps.Unambiguous ρ
  | _, _, _, .makeVariadic _ ps, ρ => ps.Unambiguous ρ
  | _, _, _, .makeWCoro _ ps, ρ => ps.Unambiguous ρ
  | _, _, _, .sequenceEnclosed _ sep closing elem, ρ => elem.Unambiguous ρ ∧ Punctuation sep closing ∧
    ∀ t v t', elem.grammar mem ρ t v t' → ElementStart closing t
  | _, _, _, @Expr.parseMap _ _ _ _ _ _ _ _ elemSep keyValueSep closing key val, ρ =>
    key.Unambiguous ρ ∧ val.Unambiguous ρ ∧ Punctuation elemSep closing ∧
      (keyValueSep.text ≠ [] ∧ startsBlank keyValueSep.text = false) ∧
      (∀ t v t', key.grammar mem ρ t v t' → ElementStart closing t) ∧
      ∀ t v t', val.grammar mem ρ t v t' → startsBlank t = false
  | _, _, _, .recurse body, ρ => body.Unambiguous (ρ.cons (least fun G => body.grammar mem (ρ.cons G)))
  | _, _, _, .recurseConstant body, ρ =>
    body.Unambiguous (ρ.cons (least fun G => body.grammar mem (ρ.cons G)))
  | _, _, _, .testThen _ _, _ => False
  | _, _, _, .test _, _ => False
  | _, _, _, .testLookahead _, _ => False
  | _, _, _, .lookahead _, _ => False
  | _, _, _, .tryParse _, _ => False
  | _, _, _, .tryLookahead _, _ => False
  | _, _, _, .foldLeft _ _ _, _ => False
  | _, _, _, .sequenceSep _ _, _ => False
  | _, _, _, .sequence _ _, _ => False

def Exprs.Unambiguous : {Γ : List ValueType} → {gs : List Bool} → {Vs : List ValueType} → Exprs Γ gs Vs →
    Grammars Γ → Prop
  | _, _, _, .nil, _ => True
  | _, _, _, .cons p ps, ρ => p.Unambiguous ρ ∧ ps.Unambiguous ρ

def Choices.Unambiguous : {Γ : List ValueType} → {W : ValueType} → {gs : List Bool} → Choices Γ W gs →
    Grammars Γ → Prop
  | _, _, _, .nil, _ => True
  | _, _, _, .cons p _ ps, ρ => p.Unambiguous ρ ∧ ps.Unambiguous ρ ∧
    ∀ t v t' w t'', p.grammar mem ρ t v t' → ¬ ps.grammar mem ρ t w t''

end

end

/-! ### Larger grammars derive more -/

section
variable {G G' : Grammar UInt8 α} {H H' : Grammar UInt8 β}

theorem Mapped.mono (f : α → β) (hG : G ≤ G') : Mapped f G ≤ Mapped f G' := by
  rintro t b t' ⟨a, h, hb⟩
  exact ⟨a, hG _ _ _ h, hb⟩

theorem Sequel.mono (hG : G ≤ G') (hH : H ≤ H') : Sequel G H ≤ Sequel G' H' := by
  rintro t x t'' ⟨t', h, h'⟩
  exact ⟨t', hG _ _ _ h, hH _ _ _ h'⟩

theorem Entry.mono {sep : AnyLiteral} (hG : G ≤ G') (hH : H ≤ H') : Entry sep G H ≤ Entry sep G' H' := by
  rintro t e t' ⟨t₁, t₂, h, hsep, h'⟩
  exact ⟨t₁, t₂, hG _ _ _ h, hsep, hH _ _ _ h'⟩

theorem Bracketed.mono {opening sep closing : AnyLiteral} (hG : G ≤ G') :
    Bracketed opening sep closing G ≤ Bracketed opening sep closing G' := by
  rintro t bs t' ⟨t₁, t₂, hopen, hlist, hclose⟩
  exact ⟨t₁, t₂, hopen, hlist.mono hG, hclose⟩

end

mutual

theorem Expr.grammar_mono : {Γ : List ValueType} → {g : Bool} → {V : ValueType} → (e : Expr Γ g V) →
    {ρ ρ' : Grammars Γ} → ρ.Le ρ' → e.grammar mem ρ ≤ e.grammar mem ρ'
  | _, _, _, .var x, _, _, h => h _ x
  | _, _, _, .intrinsic _, _, _, _ => le_rfl
  | _, _, _, .map func p, _, _, h => Mapped.mono func (p.grammar_mono h)
  | _, _, _, .shiftRight p1 p2, _, _, h => Mapped.mono _ (Sequel.mono (p1.grammar_mono h) (p2.grammar_mono h))
  | _, _, _, .enclose pre par post, _, _, h =>
    Mapped.mono _ (Sequel.mono (pre.grammar_mono h) (Sequel.mono (par.grammar_mono h) (post.grammar_mono h)))
  | _, _, _, .match_ ps, _, _, h => Mapped.mono _ (ps.grammar_mono h)
  | _, _, _, .join ps p, _, _, h => Mapped.mono _ (Sequel.mono (ps.grammar_mono h) (p.grammar_mono h))
  | _, _, _, .either ps, _, _, h => ps.grammar_mono h
  | _, _, _, .make construct ps, _, _, h => Mapped.mono construct (ps.grammar_mono h)
  | _, _, _, .makeVariadic construct ps, _, _, h => Mapped.mono construct (ps.grammar_mono h)
  | _, _, _, .makeWCoro construct ps, _, _, h => Mapped.mono construct (ps.grammar_mono h)
  | _, _, _, .sequenceEnclosed _ _ _ elem, _, _, h => Bracketed.mono (elem.grammar_mono h)
  | _, _, _, @Expr.parseMap _ _ _ _ _ _ _ _ _ _ _ key val, _, _, h =>
    Mapped.mono _ (Bracketed.mono (Entry.mono (key.grammar_mono h) (val.grammar_mono h)))
  | _, _, _, .recurse body, _, _, h => least_mono fun _ => body.grammar_mono (h.cons le_rfl)
  | _, _, _, .recurseConstant body, _, _, h => least_mono fun _ => body.grammar_mono (h.cons le_rfl)
  | _, _, _, .testThen _ _, _, _, _ => le_rfl
  | _, _, _, .test _, _, _, _ => le_rfl
  | _, _, _, .testLookahead _, _, _, _ => le_rfl
  | _, _, _, .lookahead _, _, _, _ => le_rfl
  | _, _, _, .tryParse _, _, _, _ => le_rfl
  | _, _, _, .tryLookahead _, _, _, _ => le_rfl
  | _, _, _, .foldLeft _ _ _, _, _, _ => le_rfl
  | _, _, _, .sequenceSep _ _, _, _, _ => le_rfl
  | _, _, _, .sequence _ _, _, _, _ => le_rfl

theorem Exprs.grammar_mono : {Γ : List ValueType} → {gs : List Bool} → {Vs : List ValueType} →
    (ps : Exprs Γ gs Vs) → {ρ ρ' : Grammars Γ} → ρ.Le ρ' → ps.grammar mem ρ ≤ ps.grammar mem ρ'
  | _, _, _, .nil, _, _, _ => le_rfl
  | _, _, _, .cons p ps, _, _, h => Sequel.mono (p.grammar_mono h) (ps.grammar_mono h)

theorem Choices.grammar_mono : {Γ : List ValueType} → {W : ValueType} → {gs : List Bool} →
    (ps : Choices Γ W gs) → {ρ ρ' : Grammars Γ} → ρ.Le ρ' → ps.grammar mem ρ ≤ ps.grammar mem ρ'
  | _, _, _, .nil, _, _, _ => le_rfl
  | _, _, _, .cons p conv ps, _, _, h => fun t w t' hw =>
    hw.imp (Mapped.mono conv.apply (p.grammar_mono h) t w t') (ps.grammar_mono h t w t')

end

/-- The grammar of a recursion solves its equation. -/
theorem Expr.grammar_recurse (body : Expr (T :: Γ) g T) (ρ : Grammars Γ) :
    body.grammar mem (ρ.cons (least fun G => body.grammar mem (ρ.cons G))) =
      least fun G => body.grammar mem (ρ.cons G) :=
  least_eq fun _ _ hG => body.grammar_mono (Grammars.Le.cons (fun _ _ => le_rfl) hG)

/-! ### The combinators are adequate -/

theorem Parser.Reads.adequate {p : Parser g V} {F : OnText V} (h : p.Reads mem F) :
    Adequate (textCursor mem) p.run (Token F) := by
  constructor
  · rintro st t v t' o hst ⟨n, hn, rfl⟩ hrun
    have hlen : (t.take n).length = n := List.length_take_of_le (h.le_length hn)
    have hsome : p.run st = some (some (st.removePrefix n, v)) := h.run_some hst hn
    rw [hsome, Option.some.injEq] at hrun
    exact ⟨t.take n, (List.take_append_drop n t).symm, by rw [hlen]; exact hrun.symm⟩
  · intro st t x hst hrun
    rw [h.run_eq hst.valid, hst.text] at hrun
    obtain ⟨o, ho, hs⟩ := Option.bind_eq_some_iff.1 hrun
    rcases o with _ | ⟨n, v⟩
    · cases g <;> cases hs
    · exact ⟨v, t.drop n, n, ho, rfl⟩

section
variable {A : Attempt State α} {B : Attempt State β} {G : Grammar UInt8 α} {H : Grammar UInt8 β}

theorem adequate_settle (g : Bool) {A : Attempt State V} {G : Grammar UInt8 V}
    (h : Adequate (textCursor mem) A G) :
    Adequate (textCursor mem) (fun st => (A st).bind (settle g)) G := by
  -- the state of a success is not null
  have hcases : ∀ {st t o}, st.Shows mem t → (A st).bind (settle g) = some o → A st = some o := by
    intro st t o hst hrun
    obtain ⟨_ | ⟨st', v⟩, hA, hs⟩ := Option.bind_eq_some_iff.1 hrun
    · cases g <;> cases hs
      exact hA
    · obtain ⟨w, t', rfl, rfl, -⟩ := h.sound hst hA
      exact hA.trans ((settle_of_good hst.drop.good v).symm.trans hs)
  exact ⟨fun hst hG hrun => h.parses hst hG (hcases hst hrun), fun hst hrun =>
    h.derives hst (hcases hst hrun)⟩

theorem adequate_ofAttempt {A : Attempt State V} {G : Grammar UInt8 V}
    (h : Adequate (textCursor mem) A G) : Adequate (textCursor mem) (Parser.ofAttempt g A).run G := by
  have hrun : (Parser.ofAttempt g A).run = fun st => (A st).bind (settle g) := funext (run_ofAttempt A)
  rw [hrun]
  exact adequate_settle g h

theorem adequate_toFallible {p : Parser g V} {G : Grammar UInt8 V}
    (h : Adequate (textCursor mem) p.run G) : Adequate (textCursor mem) p.toFallible.run G := by
  have hrun : p.toFallible.run = fun st => (p.run st).bind (settle false) := funext (run_toFallible p)
  rw [hrun]
  exact adequate_settle false h

theorem adequate_sequel (hA : Adequate (textCursor mem) A G) (hB : Adequate (textCursor mem) B H) :
    Adequate (textCursor mem) (bind A fun a => Attempt.map (fun b => (a, b)) B) (Sequel G H) := by
  refine (hA.bind fun a => hB.map fun b => (a, b)).congr fun t x t'' => ?_
  constructor
  · rintro ⟨t', hG, hH⟩
    exact ⟨x.1, t', hG, x.2, hH, rfl⟩
  · rintro ⟨a, t', hG, b, hH, rfl⟩
    exact ⟨t', hG, hH⟩

theorem adequate_behind (hA : Adequate (textCursor mem) A G) (hB : Adequate (textCursor mem) B H) :
    Adequate (textCursor mem) (bind A fun _ => B) (Mapped Prod.snd (Sequel G H)) := by
  refine (hA.bind fun _ => hB).congr fun t b t'' => ?_
  constructor
  · rintro ⟨x, ⟨t', hG, hH⟩, rfl⟩
    exact ⟨x.1, t', hG, hH⟩
  · rintro ⟨a, t', hG, hH⟩
    exact ⟨(a, b), ⟨t', hG, hH⟩, rfl⟩

theorem adequate_fail : Adequate (textCursor mem) (Attempt.fail : Attempt State α) ⊥ :=
  ⟨fun _ hG => hG.elim, fun _ hA => by cases hA⟩

section
variable {p : Parser g V} {q : Parser g' W} {ps : Parsers gs Vs} {P : Grammar UInt8 V}
variable {Q : Grammar UInt8 W} {Ps : Grammar UInt8 (ValuesOf Vs)}

theorem adequate_nil : Adequate (textCursor mem) Parsers.nil.runAll Empty :=
  (Adequate.pure ()).congr fun _ _ _ => ⟨fun h => ⟨rfl, h⟩, fun h => h.2⟩

theorem adequate_cons (hp : Adequate (textCursor mem) p.run P) (hs : Adequate (textCursor mem) ps.runAll Ps) :
    Adequate (textCursor mem) (Parsers.cons p ps).runAll (Sequel P Ps) := adequate_sequel hp hs

theorem adequate_match (h : Adequate (textCursor mem) ps.runAll Ps) :
    Adequate (textCursor mem) (match_ ps).run (Mapped (fun _ => ()) Ps) := by
  rw [match_eq]
  exact adequate_ofAttempt (h.map fun _ => ())

theorem adequate_joinLast {m : Parser g' empty} {M : Grammar UInt8 Unit}
    (hm : Adequate (textCursor mem) m.run M) (hp : Adequate (textCursor mem) p.run P) :
    Adequate (textCursor mem) (joinLast m p).run (Mapped Prod.snd (Sequel M P)) := by
  cases g'
  · rw [run_joinLast]
    exact adequate_behind hm (adequate_toFallible hp)
  · rw [run_joinLast_good]
    exact adequate_behind hm hp

theorem adequate_join_nil (hp : Adequate (textCursor mem) p.run P) :
    Adequate (textCursor mem) (join .nil p).run (Mapped Prod.snd (Sequel Empty P)) := by
  refine hp.congr fun t v t' => ?_
  constructor
  · rintro ⟨x, ⟨t₁, rfl, hv⟩, rfl⟩
    exact hv
  · intro hv
    exact ⟨((), v), ⟨t, rfl, hv⟩, rfl⟩

theorem adequate_join_cons {ps : Parsers (g :: gs) (V :: Vs)} {Ps : Grammar UInt8 (ValuesOf (V :: Vs))}
    (hs : Adequate (textCursor mem) ps.runAll Ps) (hq : Adequate (textCursor mem) q.run Q) :
    Adequate (textCursor mem) (join ps q).run (Mapped Prod.snd (Sequel Ps Q)) := by
  cases ps with
  | cons p ps =>
    refine (adequate_joinLast (adequate_match hs) hq).congr fun t v t' => ?_
    constructor
    · rintro ⟨x, ⟨t₁, hx, hv⟩, rfl⟩
      exact ⟨((), x.2), ⟨t₁, ⟨x.1, hx, rfl⟩, hv⟩, rfl⟩
    · rintro ⟨x, ⟨t₁, ⟨vs, hx, -⟩, hv⟩, rfl⟩
      exact ⟨(vs, x.2), ⟨t₁, hx, hv⟩, rfl⟩

theorem adequate_separator (mem : Memory) (sep : List AnyLiteral) :
    Adequate (textCursor mem) (separator mem sep).run (SeparatorToken sep) := by
  have hblank : Adequate (textCursor mem) (whitespace mem).run (Token (matchChsText whitespaceChars)) :=
    (zeroOrMoreChars_reads whitespaceChars).adequate
  exact adequate_match (adequate_cons hblank (adequate_cons (literal_reads sep).adequate
    (adequate_cons hblank adequate_nil)))

theorem Intrinsic.adequate (mem : Memory) : {g : Bool} → {V : ValueType} → (i : Intrinsic g V) →
    Adequate (textCursor mem) (i.parser mem).run (i.grammar mem)
  | _, _, pure value => (pureParser_reads value).adequate
  | _, _, charconv fc => (charconv_reads fc).adequate
  | _, _, literal lits => (literal_reads lits).adequate
  | _, _, literalMakes T h lits => (literalMakes_reads T h lits).adequate
  | _, _, literalConstant constant lits => (literalConstant_reads constant lits).adequate
  | _, _, matchChs chars => (zeroOrMoreChars_reads chars).adequate
  | _, _, countCh chars => (countChars_reads chars).adequate
  | _, _, whitespace => (zeroOrMoreChars_reads whitespaceChars).adequate
  | _, _, separator sep => adequate_separator mem sep
  | _, _, parseBool => boolParser_reads.adequate
  | _, _, parseLine => lineParser_reads.adequate
  | _, _, viewParser begin_ end_ escape => (viewParser_reads begin_ end_ escape).adequate
  | _, _, testPrefix _ h => (testPrefix_reads h).adequate
  | _, _, requirePrefix _ h => (requirePrefix_reads h).adequate

/-- Brackets around adequate elements. -/
theorem adequate_bracketed {X : Type} {A : Attempt State V} {G : Grammar UInt8 V}
    {opening sep closing : AnyLiteral} (hA : Adequate (textCursor mem) A G) (h : Punctuation sep closing)
    (hG : ∀ t v t', G t v t' → ElementStart closing t) (push : X → V → X) (x : X) :
    Adequate (textCursor mem) (bracketed mem opening sep closing A push x)
      (Mapped (fun vs => vs.foldl push x) (Bracketed opening sep closing G)) := by
  have hopen := (recognizes_openParser mem opening).adequate fun _ => trivial
  have hsep := (recognizes_separator mem h.sep_ne h.sep_start).adequate fun _ => trivial
  have hclose := (recognizes_closeParser mem h.closing_ne h.closing_start).adequate fun _ => trivial
  have hlist := adequate_sepBy hsep hA push x hclose
    (fun hs => h.not_closes_of_separates hs.1) fun hg => h.not_closes_of_start (hG _ _ _ hg)
  refine (hopen.bind fun _ => hlist).congr fun t y t' => ?_
  constructor
  · rintro ⟨vs, hb, rfl⟩
    obtain ⟨t₁, t₂, ho, hl, hc⟩ := (h.bracketed_iff hG).1 hb
    exact ⟨(), t₁, ho, vs, t₂, (), hl, hc, rfl⟩
  · rintro ⟨_, t₁, ho, vs, t₂, _, hl, hc, rfl⟩
    exact ⟨vs, (h.bracketed_iff hG).2 ⟨t₁, t₂, ho, hl, hc⟩, rfl⟩

theorem adequate_makePair {sep : AnyLiteral} (hne : sep.text ≠ []) (hstart : startsBlank sep.text = false)
    (hp : Adequate (textCursor mem) p.run P) (hq : Adequate (textCursor mem) q.run Q)
    (hQ : ∀ t w t', Q t w t' → startsBlank t = false) :
    Adequate (textCursor mem) (makePair mem sep p q).run (Entry sep P Q) := by
  have hsep := (recognizes_separator mem hne hstart).adequate fun _ => trivial
  have hvalue := adequate_join_cons (adequate_cons hsep adequate_nil) hq
  have hall := adequate_cons hp (adequate_cons hvalue adequate_nil)
  have hrun : (makePair mem sep p q).run = _ := congrArg Parser.run (makeVariadic_eq _ _)
  rw [hrun]
  refine (adequate_ofAttempt (hall.map _)).congr fun t e t' => ?_
  constructor
  · rintro ⟨t₁, t₂, hkey, hsep, hval⟩
    exact ⟨(e.1, e.2, ()), ⟨t₁, hkey, t', ⟨(((), ()), e.2), ⟨t₂, ⟨t₂, ⟨hsep, hQ _ _ _ hval⟩, rfl⟩, hval⟩, rfl⟩,
      rfl⟩, rfl⟩
  · rintro ⟨⟨v, w, _⟩, ⟨t₁, hkey, _, ⟨⟨_, w'⟩, ⟨t₂, ⟨_, ⟨hsep, -⟩, rfl⟩, hval⟩, heq⟩, rfl⟩, rfl⟩
    obtain rfl : w = w' := heq
    exact ⟨t₁, t₂, hkey, hsep, hval⟩

end

end

/-! ### Unambiguous expressions accept their grammar -/

/-- The parsers of `env` are adequate for the grammars of `ρ`. -/
def Grammars.Adequate (mem : Memory) (ρ : Grammars Γ) (env : Env Γ) : Prop :=
  ∀ (T : ValueType) (x : Var Γ T), Recognition.Adequate (textCursor mem) (env x).run (ρ T x)

theorem Grammars.Adequate.cons {ρ : Grammars Γ} {env : Env Γ} (h : ρ.Adequate mem env)
    {G : Grammar UInt8 T} {q : Parser false T} (hq : Recognition.Adequate (textCursor mem) q.run G) :
    (ρ.cons G).Adequate mem (Env.cons q env)
  | _, .zero => hq
  | _, .succ x => h _ x

/-- Calls of any depth are adequate for a grammar that solves the equation. -/
theorem adequate_recurse {func : Parser false T → Parser g T} {G : Grammar UInt8 T}
    (h : ∀ q : Parser false T, Adequate (textCursor mem) q.run G →
      Adequate (textCursor mem) (func q).run G) : Adequate (textCursor mem) (recurse func).run G := by
  have hwithin : ∀ depth, Adequate (textCursor mem) (recurseConstantWithin func depth).run G := by
    intro depth
    induction depth with
    | zero =>
      have hnone : ∀ {st o}, (recurseConstantWithin func 0).run st ≠ some o := fun h => by cases h
      exact ⟨fun _ _ hrun => absurd hrun hnone, fun _ hrun => absurd hrun hnone⟩
    | succ depth ih =>
      rw [recurseConstantWithin_succ]
      exact adequate_toFallible (h _ ih)
  -- what `recurse` returns some depth of calls returns
  refine .of_results fun {st o} hrun => ?_
  rw [run_recurse] at hrun
  obtain ⟨depth, hdepth, -⟩ := search_eq_some_iff.1 hrun
  exact ⟨_, hwithin depth, hdepth⟩

mutual

theorem Expr.adequate_eval : {Γ : List ValueType} → {g : Bool} → {V : ValueType} → (e : Expr Γ g V) →
    {ρ : Grammars Γ} → {env : Env Γ} → e.Unambiguous mem ρ → ρ.Adequate mem env →
    Adequate (textCursor mem) (e.eval mem env).run (e.grammar mem ρ)
  | _, _, _, .var x, _, _, _, h => h _ x
  | _, _, _, .intrinsic i, _, _, _, _ => i.adequate mem
  | _, _, _, .map func p, _, _, he, h => by
    rw [Expr.eval, map_eq]
    exact adequate_ofAttempt ((p.adequate_eval he h).map func)
  | _, _, _, .shiftRight p1 p2, _, _, he, h => by
    show Adequate _ (shiftRight _ _).run _
    rw [shiftRight_eq]
    exact adequate_ofAttempt (adequate_behind (p1.adequate_eval he.1 h) (p2.adequate_eval he.2 h))
  | _, _, _, .enclose pre par post, _, _, he, h => by
    rw [Expr.eval, enclose_eq]
    refine (adequate_ofAttempt ((pre.adequate_eval he.1 h).bind fun _ =>
      (par.adequate_eval he.2.1 h).bind fun v => (post.adequate_eval he.2.2 h).map fun _ => v)).congr
        fun t v t' => ?_
    constructor
    · rintro ⟨x, ⟨t₁, hpre, t₂, hpar, hpost⟩, rfl⟩
      exact ⟨x.1, t₁, hpre, x.2.1, t₂, hpar, x.2.2, hpost, rfl⟩
    · rintro ⟨u, t₁, hpre, w, t₂, hpar, x, hpost, rfl⟩
      exact ⟨(u, v, x), ⟨t₁, hpre, t₂, hpar, hpost⟩, rfl⟩
  | _, _, _, .match_ ps, _, _, he, h => adequate_match (ps.adequate_runAll he h)
  | _, _, _, .join .nil p, _, _, he, h => adequate_join_nil (p.adequate_eval he.2 h)
  | _, _, _, .join (.cons q qs) p, _, _, he, h =>
    adequate_join_cons (adequate_cons (q.adequate_eval he.1.1 h) (qs.adequate_runAll he.1.2 h))
      (p.adequate_eval he.2 h)
  | _, _, _, .either ps, _, env, he, h => by
    have hrun := run_either (ps.eval mem env)
    rw [Expr.eval, hrun]
    exact adequate_ofAttempt (ps.adequate_runFirst he h)
  | _, _, _, .make construct ps, _, _, he, h => by
    rw [Expr.eval, make_eq]
    exact adequate_ofAttempt ((ps.adequate_runAll he h).map construct)
  | _, _, _, .makeVariadic construct ps, _, _, he, h => by
    rw [Expr.eval, makeVariadic_eq]
    exact adequate_ofAttempt ((ps.adequate_runAll he h).map construct)
  | _, _, _, .makeWCoro construct ps, _, _, he, h => by
    rw [Expr.eval, makeWCoro_eq, makeVariadic_eq]
    exact adequate_ofAttempt ((ps.adequate_runAll he h).map construct)
  | _, _, _, .sequenceEnclosed opening sep closing elem, _, _, he, h => by
    rw [Expr.eval, sequenceEnclosed_eq]
    refine (adequate_ofAttempt (adequate_bracketed (elem.adequate_eval he.1 h) he.2.1 he.2.2 pushBack
      [])).congr fun t vs t' => ?_
    constructor
    · intro hb
      exact ⟨vs, hb, (foldl_pushBack [] vs).symm⟩
    · rintro ⟨vs', hb, heq⟩
      obtain rfl : vs = vs' := heq.trans (foldl_pushBack [] vs')
      exact hb
  | _, _, _, @Expr.parseMap _ _ _ _ _ _ _ opening elemSep keyValueSep closing key val, _, _, he, h => by
    rw [Expr.eval, parseMap_eq]
    have hentry := adequate_makePair he.2.2.2.1.1 he.2.2.2.1.2 (key.adequate_eval he.1 h)
      (val.adequate_eval he.2.1 h) he.2.2.2.2.2
    refine adequate_ofAttempt (adequate_bracketed hentry he.2.2.1 (fun t e t' hE => ?_) emplaceEntry _)
    obtain ⟨t₁, t₂, hkey, -⟩ := hE
    exact he.2.2.2.2.1 _ _ _ hkey
  | _, _, _, .recurse body, ρ, _, he, h => adequate_recurse fun q hq => by
    have hbody := body.adequate_eval he (h.cons hq)
    rwa [body.grammar_recurse ρ] at hbody
  | _, _, _, .recurseConstant body, ρ, _, he, h => by
    rw [Expr.eval, ← recurse_eq]
    refine adequate_recurse fun q hq => ?_
    have hbody := body.adequate_eval he (h.cons hq)
    rwa [body.grammar_recurse ρ] at hbody

theorem Exprs.adequate_runAll : {Γ : List ValueType} → {gs : List Bool} → {Vs : List ValueType} →
    (ps : Exprs Γ gs Vs) → {ρ : Grammars Γ} → {env : Env Γ} → ps.Unambiguous mem ρ →
    ρ.Adequate mem env → Adequate (textCursor mem) (ps.eval mem env).runAll (ps.grammar mem ρ)
  | _, _, _, .nil, _, _, _, _ => adequate_nil
  | _, _, _, .cons p ps, _, _, he, h => adequate_cons (p.adequate_eval he.1 h) (ps.adequate_runAll he.2 h)

theorem Choices.adequate_runFirst : {Γ : List ValueType} → {W : ValueType} → {gs : List Bool} →
    (ps : Choices Γ W gs) → {ρ : Grammars Γ} → {env : Env Γ} → ps.Unambiguous mem ρ →
    ρ.Adequate mem env → Adequate (textCursor mem) (ps.eval mem env).runFirst (ps.grammar mem ρ)
  | _, _, _, .nil, _, _, _, _ => adequate_fail
  | _, _, _, .cons p conv ps, _, _, he, h => by
    refine ((p.adequate_eval he.1 h).map conv.apply).orElse (ps.adequate_runFirst he.2.1 h) ?_
    rintro t w t' w' t'' ⟨v, hp, -⟩ hps
    exact he.2.2 t v t' w' t'' hp hps

end

theorem Grammars.adequate_nil (mem : Memory) : Grammars.nil.Adequate mem Env.nil := fun _ x => nomatch x

section
variable {N : Type} [Inhabited N] {G : Grammar UInt8 (JsonValue N)} {gs : List Bool}

variable {fc : FromChars (double N)} {ps : Choices [jsonValue N] (jsonValue N) gs} {a : JsonAlternative}
variable {v : JsonValue N} {order : List JsonAlternative}

section
variable (hnum : NumberGrammar (readNumber fc))
include hnum

end

end

end Noam
