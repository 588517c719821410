import Noam.Coroutine
import Noam.Relation

/-!
# Parser expressions

What a program can build from the intrinsic parsers with the combinators. `eval` is the parser that
the source builds, with the branches that `parser_always_good_v` selects; in `evalChecked` every
result is a `result<Value>` that is tested. `recurse` binds a parser, the reference that its function
is given.
-/

namespace Noam
open GetResult ValueType

variable {V W T U : ValueType} {g : Bool} {gs : List Bool} {Vs Γ : List ValueType}

/-- The intrinsic parsers, except for `parse_string`. The prefix of `test_prefix` and
`require_prefix` is a view. -/
inductive Intrinsic : Bool → ValueType → Type 1 where
  | pure {V : ValueType} (value : V) : Intrinsic true V
  | charconv {V : ValueType} (fc : FromChars V) : Intrinsic false V
  | literal (lits : List AnyLiteral) : Intrinsic false empty
  | literalMakes (T : ValueType) (h : T.default?.isSome) (lits : List AnyLiteral) : Intrinsic false T
  | literalConstant {V : ValueType} (constant : V) (lits : List AnyLiteral) : Intrinsic false V
  | matchChs (chars : List UInt8) : Intrinsic true empty
  | countCh (chars : List UInt8) : Intrinsic true sizeT
  | whitespace : Intrinsic true empty
  | separator (sep : List AnyLiteral) : Intrinsic false empty
  | parseBool : Intrinsic false bool
  | parseLine : Intrinsic true stringView
  | viewParser (begin_ end_ escape : AnyLiteral) : Intrinsic false stringView
  | testPrefix (pre : State) (h : pre.Valid) : Intrinsic true bool
  | requirePrefix (pre : State) (h : pre.Valid) : Intrinsic false state

def Intrinsic.parser (mem : Memory) : {g : Bool} → {V : ValueType} → Intrinsic g V → Parser g V
  | _, _, pure value => pureParser value
  | _, _, charconv fc => Noam.charconv mem fc
  | _, _, literal lits => Noam.literal mem lits
  | _, _, literalMakes T h lits => Noam.literalMakes mem T h lits
  | _, _, literalConstant constant lits => Noam.literalConstant mem constant lits
  | _, _, matchChs chars => zeroOrMoreChars mem chars
  | _, _, countCh chars => countChars mem chars
  | _, _, whitespace => Noam.whitespace mem
  | _, _, separator sep => Noam.separator mem sep
  | _, _, parseBool => boolParser mem
  | _, _, parseLine => lineParser mem
  | _, _, viewParser begin_ end_ escape => Noam.viewParser mem begin_ end_ escape
  | _, _, testPrefix pre _ => Noam.testPrefix mem pre
  | _, _, requirePrefix pre _ => Noam.requirePrefix mem pre

/-- The references to enclosing uses of `recurse`, innermost first. -/
inductive Var : List ValueType → ValueType → Type 1 where
  | zero {Γ : List ValueType} {T : ValueType} : Var (T :: Γ) T
  | succ {Γ : List ValueType} {T U : ValueType} (x : Var Γ T) : Var (U :: Γ) T

abbrev Env (Γ : List ValueType) := ∀ {T : ValueType}, Var Γ T → Parser false T

def Env.nil : Env [] := fun x => nomatch x

def Env.cons (q : Parser false T) (env : Env Γ) : Env (T :: Γ)
  | _, .zero => q
  | _, .succ x => env x

mutual

inductive Expr : List ValueType → Bool → ValueType → Type 1 where
  | var {Γ : List ValueType} {T : ValueType} (x : Var Γ T) : Expr Γ false T
  | intrinsic {Γ : List ValueType} {g : Bool} {V : ValueType} (i : Intrinsic g V) : Expr Γ g V
  | map {Γ : List ValueType} {g : Bool} {V W : ValueType} (func : V → W) (p : Expr Γ g V) : Expr Γ g W
  | shiftRight {Γ : List ValueType} {g₁ g₂ : Bool} {V W : ValueType} (p1 : Expr Γ g₁ V)
      (p2 : Expr Γ g₂ W) : Expr Γ false W
  | enclose {Γ : List ValueType} {g₁ g₂ g₃ : Bool} {U V W : ValueType} (pre : Expr Γ g₁ U)
      (par : Expr Γ g₂ V) (post : Expr Γ g₃ W) : Expr Γ false V
  | match_ {Γ : List ValueType} {gs : List Bool} {Vs : List ValueType} (ps : Exprs Γ gs Vs) :
      Expr Γ (gs.all id) empty
  | join {Γ : List ValueType} {gs : List Bool} {Vs : List ValueType} {g : Bool} {V : ValueType}
      (ps : Exprs Γ gs Vs) (p : Expr Γ g V) : Expr Γ (gs.all id && g) V
  | either {Γ : List ValueType} {gs : List Bool} {W : ValueType} (ps : Choices Γ W gs) :
      Expr Γ (eitherGood gs) W
  | make {Γ : List ValueType} {gs : List Bool} {Vs : List ValueType} {T : ValueType}
      (construct : ValuesOf Vs → T) (ps : Exprs Γ gs Vs) : Expr Γ (makeGood gs) T
  | makeVariadic {Γ : List ValueType} {gs : List Bool} {Vs : List ValueType} {T : ValueType}
      (construct : ValuesOf Vs → T) (ps : Exprs Γ gs Vs) : Expr Γ false T
  | makeWCoro {Γ : List ValueType} {gs : List Bool} {Vs : List ValueType} {T : ValueType}
      (construct : ValuesOf Vs → T) (ps : Exprs Γ gs Vs) : Expr Γ false T
  | testThen {Γ : List ValueType} {g : Bool} {V : ValueType} (p : Expr Γ g V) (func : V → Unit) :
      Expr Γ true bool
  | test {Γ : List ValueType} {g : Bool} (p : Expr Γ g bool) : Expr Γ true bool
  | testLookahead {Γ : List ValueType} {g : Bool} (p : Expr Γ g bool) : Expr Γ true bool
  | lookahead {Γ : List ValueType} {g : Bool} {V : ValueType} (p : Expr Γ g V) : Expr Γ g V
  | tryParse {Γ : List ValueType} {g : Bool} {V : ValueType} (p : Expr Γ g V) :
      Expr Γ true V.deduceOptional
  | tryLookahead {Γ : List ValueType} {g : Bool} {V : ValueType} (p : Expr Γ g V) :
      Expr Γ true V.deduceOptional
  | foldLeft {Γ : List ValueType} {g₁ g₂ : Bool} {V W : ValueType} (initial : Expr Γ g₁ V)
      (rest : Expr Γ g₂ W) (op : V → W → V) : Expr Γ false V
  | sequenceSep {Γ : List ValueType} {g : Bool} {V : ValueType} (sep : AnyLiteral)
      (elem : Expr Γ g V) : Expr Γ true (vector V)
  | sequenceEnclosed {Γ : List ValueType} {g : Bool} {V : ValueType}
      (opening sep closing : AnyLiteral) (elem : Expr Γ g V) : Expr Γ false (vector V)
  | sequence {Γ : List ValueType} {g₁ g₂ : Bool} {V U : ValueType} (elem : Expr Γ g₁ V)
      (sep : Expr Γ g₂ U) : Expr Γ true (vector V)
  | parseMap {Γ : List ValueType} {g₁ g₂ : Bool} {V W : ValueType} (M : Type) [EmplaceMap M V W]
      (opening elemSep keyValueSep closing : AnyLiteral) (key : Expr Γ g₁ V) (val : Expr Γ g₂ W) :
      Expr Γ false (mapType M V W)
  | recurse {Γ : List ValueType} {g : Bool} {T : ValueType} (body : Expr (T :: Γ) g T) : Expr Γ false T
  | recurseConstant {Γ : List ValueType} {g : Bool} {T : ValueType} (body : Expr (T :: Γ) g T) :
      Expr Γ false T

inductive Exprs : List ValueType → List Bool → List ValueType → Type 1 where
  | nil {Γ : List ValueType} : Exprs Γ [] []
  | cons {Γ : List ValueType} {g : Bool} {V : ValueType} {gs : List Bool} {Vs : List ValueType}
      (p : Expr Γ g V) (ps : Exprs Γ gs Vs) : Exprs Γ (g :: gs) (V :: Vs)

inductive Choices : List ValueType → ValueType → List Bool → Type 1 where
  | nil {Γ : List ValueType} {W : ValueType} : Choices Γ W []
  | cons {Γ : List ValueType} {g : Bool} {V W : ValueType} {gs : List Bool} (p : Expr Γ g V)
      (conv : Conversion V W) (ps : Choices Γ W gs) : Choices Γ W (g :: gs)

end

section
variable (mem : Memory)

mutual

def Expr.eval : {Γ : List ValueType} → {g : Bool} → {V : ValueType} → Expr Γ g V → Env Γ → Parser g V
  | _, _, _, .var x, env => env x
  | _, _, _, .intrinsic i, _ => i.parser mem
  | _, _, _, .map func p, env => Noam.map func (p.eval env)
  | _, _, _, .shiftRight p1 p2, env => p1.eval env >>> p2.eval env
  | _, _, _, .enclose pre par post, env => Noam.enclose (pre.eval env) (par.eval env) (post.eval env)
  | _, _, _, .match_ ps, env => Noam.match_ (ps.eval env)
  | _, _, _, .join ps p, env => Noam.join (ps.eval env) (p.eval env)
  | _, _, _, .either ps, env => Noam.either (ps.eval env)
  | _, _, _, .make construct ps, env => Noam.make construct (ps.eval env)
  | _, _, _, .makeVariadic construct ps, env => Noam.makeVariadic construct (ps.eval env)
  | _, _, _, .makeWCoro construct ps, env => Noam.makeWCoro construct (ps.eval env)
  | _, _, _, .testThen p func, env => Noam.testThen (p.eval env) func
  | _, _, _, .test p, env => Noam.test (p.eval env)
  | _, _, _, .testLookahead p, env => Noam.testLookahead (p.eval env)
  | _, _, _, .lookahead p, env => Noam.lookahead (p.eval env)
  | _, _, _, .tryParse p, env => Noam.tryParse (p.eval env)
  | _, _, _, .tryLookahead p, env => Noam.tryLookahead (p.eval env)
  | _, _, _, .foldLeft initial rest op, env => Noam.foldLeft (initial.eval env) (rest.eval env) op
  | _, _, _, .sequenceSep sep elem, env => Noam.sequenceSep mem sep (elem.eval env)
  | _, _, _, .sequenceEnclosed opening sep closing elem, env =>
    Noam.sequenceEnclosed mem opening sep closing (elem.eval env)
  | _, _, _, .sequence elem sep, env => Noam.sequence (elem.eval env) (sep.eval env)
  | _, _, _, @Expr.parseMap _ _ _ _ _ M _ opening elemSep keyValueSep closing key val, env =>
    Noam.parseMap mem M opening elemSep keyValueSep closing (key.eval env) (val.eval env)
  | _, _, _, .recurse body, env => Noam.recurse fun q => body.eval (Env.cons q env)
  | _, _, _, .recurseConstant body, env => Noam.recurseConstant fun q => body.eval (Env.cons q env)

def Exprs.eval : {Γ : List ValueType} → {gs : List Bool} → {Vs : List ValueType} → Exprs Γ gs Vs →
    Env Γ → Parsers gs Vs
  | _, _, _, .nil, _ => .nil
  | _, _, _, .cons p ps, env => .cons (p.eval env) (ps.eval env)

def Choices.eval : {Γ : List ValueType} → {W : ValueType} → {gs : List Bool} → Choices Γ W gs →
    Env Γ → Alternatives W gs
  | _, _, _, .nil, _ => .nil
  | _, _, _, .cons p conv ps, env => .cons (p.eval env) conv (ps.eval env)

end

mutual

def Expr.evalChecked : {Γ : List ValueType} → {g : Bool} → {V : ValueType} → Expr Γ g V → Env Γ →
    Parser false V
  | _, _, _, .var x, env => env x
  | _, _, _, .intrinsic i, _ => (i.parser mem).toFallible
  | _, _, _, .map func p, env => Noam.map func (p.evalChecked env)
  | _, _, _, .shiftRight p1 p2, env => p1.evalChecked env >>> p2.evalChecked env
  | _, _, _, .enclose pre par post, env =>
    Noam.enclose (pre.evalChecked env) (par.evalChecked env) (post.evalChecked env)
  | _, _, _, .match_ ps, env => (Noam.match_ (ps.evalChecked env)).toFallible
  | _, _, _, .join ps p, env => (Noam.join (ps.evalChecked env) (p.evalChecked env)).toFallible
  | _, _, _, .either ps, env => (Noam.either (ps.evalChecked env)).toFallible
  | _, _, _, .make construct ps, env => (Noam.make construct (ps.evalChecked env)).toFallible
  | _, _, _, .makeVariadic construct ps, env => Noam.makeVariadic construct (ps.evalChecked env)
  | _, _, _, .makeWCoro construct ps, env => Noam.makeWCoro construct (ps.evalChecked env)
  | _, _, _, .testThen p func, env => (Noam.testThen (p.evalChecked env) func).toFallible
  | _, _, _, .test p, env => (Noam.test (p.evalChecked env)).toFallible
  | _, _, _, .testLookahead p, env => (Noam.testLookahead (p.evalChecked env)).toFallible
  | _, _, _, .lookahead p, env => Noam.lookahead (p.evalChecked env)
  | _, _, _, .tryParse p, env => (Noam.tryParse (p.evalChecked env)).toFallible
  | _, _, _, .tryLookahead p, env => (Noam.tryLookahead (p.evalChecked env)).toFallible
  | _, _, _, .foldLeft initial rest op, env =>
    Noam.foldLeft (initial.evalChecked env) (rest.evalChecked env) op
  | _, _, _, .sequenceSep sep elem, env => (Noam.sequenceSep mem sep (elem.evalChecked env)).toFallible
  | _, _, _, .sequenceEnclosed opening sep closing elem, env =>
    Noam.sequenceEnclosed mem opening sep closing (elem.evalChecked env)
  | _, _, _, .sequence elem sep, env =>
    (Noam.sequence (elem.evalChecked env) (sep.evalChecked env)).toFallible
  | _, _, _, @Expr.parseMap _ _ _ _ _ M _ opening elemSep keyValueSep closing key val, env =>
    Noam.parseMap mem M opening elemSep keyValueSep closing (key.evalChecked env) (val.evalChecked env)
  | _, _, _, .recurse body, env => Noam.recurse fun q => body.evalChecked (Env.cons q env)
  | _, _, _, .recurseConstant body, env =>
    Noam.recurseConstant fun q => body.evalChecked (Env.cons q env)

def Exprs.evalChecked : {Γ : List ValueType} → {gs : List Bool} → {Vs : List ValueType} →
    Exprs Γ gs Vs → Env Γ → Parsers (gs.map fun _ => false) Vs
  | _, _, _, .nil, _ => .nil
  | _, _, _, .cons p ps, env => .cons (p.evalChecked env) (ps.evalChecked env)

def Choices.evalChecked : {Γ : List ValueType} → {W : ValueType} → {gs : List Bool} →
    Choices Γ W gs → Env Γ → Alternatives W (gs.map fun _ => false)
  | _, _, _, .nil, _ => .nil
  | _, _, _, .cons p conv ps, env => .cons (p.evalChecked env) conv (ps.evalChecked env)

end

end

/-! ### Evaluation respects relations on states -/

def Env.Rel (R : State → State → Prop) (env env' : Env Γ) : Prop :=
  ∀ {T : ValueType} (x : Var Γ T), (env x).Rel R (env' x)

theorem Env.Rel.cons {R : State → State → Prop} {q q' : Parser false T} {env env' : Env Γ}
    (hq : q.Rel R q') (h : Env.Rel R env env') : Env.Rel R (Env.cons q env) (Env.cons q' env')
  | _, .zero => hq
  | _, .succ x => h x

theorem Env.rel_nil {R : State → State → Prop} : Env.Rel R Env.nil Env.nil := fun x => nomatch x

/-- The relations that the intrinsic parsers respect. -/
structure Admissible (mem : Memory) (R : State → State → Prop) : Prop where
  good : ∀ s t, R s t → s.good = t.good
  intrinsic : ∀ {g V} (i : Intrinsic g V), (i.parser mem).Rel R (i.parser mem)

namespace Admissible
variable {mem : Memory} {R : State → State → Prop}

theorem respected (h : Admissible mem R) : Respected mem R :=
  ⟨keptAlike_refl h.good false, fun lits => h.intrinsic (.literal lits),
    fun chars => h.intrinsic (.matchChs chars)⟩

theorem kept (h : Admissible mem R) (g : Bool) : KeptAlike R g g := keptAlike_refl h.good g

end Admissible

theorem makeWCoro_rel {R : State → State → Prop} {gs gs' : List Bool} {Vs : List ValueType}
    {T : ValueType} {ps : Parsers gs Vs} {ps' : Parsers gs' Vs} (construct : ValuesOf Vs → T)
    (hk : KeptAlike R false false) (h : ps.Rel R ps') :
    (Noam.makeWCoro construct ps).Rel R (Noam.makeWCoro construct ps') := by
  rw [makeWCoro_eq, makeWCoro_eq]
  exact makeVariadic_rel construct hk h

section
-- the lists of expressions use the hypotheses only through the expressions in them
set_option linter.unusedSectionVars false
variable {mem : Memory} {R : State → State → Prop} (hR : Admissible mem R)
include hR

mutual

theorem Expr.eval_rel : {Γ : List ValueType} → {g : Bool} → {V : ValueType} → (e : Expr Γ g V) →
    {env env' : Env Γ} → Env.Rel R env env' → (e.eval mem env).Rel R (e.eval mem env')
  | _, _, _, .var x, _, _, h => h x
  | _, _, _, .intrinsic i, _, _, _ => hR.intrinsic i
  | _, _, _, .map func p, _, _, h => map_rel (hR.kept _) func (p.eval_rel h)
  | _, _, _, .shiftRight p1 p2, _, _, h =>
    shiftRight_rel (hR.kept _) (p1.eval_rel h) (p2.eval_rel h)
  | _, _, _, .enclose pre par post, _, _, h =>
    enclose_rel (hR.kept _) (pre.eval_rel h) (par.eval_rel h) (post.eval_rel h)
  | _, _, _, .match_ ps, _, _, h => match_rel (hR.kept _) (ps.eval_rel h)
  | _, _, _, .join ps p, _, _, h => join_rel (hR.kept _) (hR.kept _) (ps.eval_rel h) (p.eval_rel h)
  | _, _, _, .either ps, _, _, h => either_rel (hR.kept _) (ps.eval_rel h)
  | _, _, _, .make construct ps, _, _, h => make_rel construct (hR.kept _) (ps.eval_rel h)
  | _, _, _, .makeVariadic construct ps, _, _, h =>
    makeVariadic_rel construct (hR.kept _) (ps.eval_rel h)
  | _, _, _, .makeWCoro construct ps, _, _, h => makeWCoro_rel construct (hR.kept _) (ps.eval_rel h)
  | _, _, _, .testThen p func, _, _, h => testThen_rel func (p.eval_rel h)
  | _, _, _, .test p, _, _, h => test_rel (p.eval_rel h)
  | _, _, _, .testLookahead p, _, _, h => test_rel (p.eval_rel h)
  | _, _, _, .lookahead p, _, _, h => lookahead_rel (hR.kept _) (p.eval_rel h)
  | _, _, _, .tryParse p, _, _, h => tryParse_rel (p.eval_rel h)
  | _, _, _, .tryLookahead p, _, _, h => tryLookahead_rel (p.eval_rel h)
  | _, _, _, .foldLeft initial rest op, _, _, h =>
    foldLeft_rel op (hR.kept _) (initial.eval_rel h) (rest.eval_rel h)
  | _, _, _, .sequenceSep sep elem, _, _, h => hR.respected.sequenceSep sep (elem.eval_rel h)
  | _, _, _, .sequenceEnclosed opening sep closing elem, _, _, h =>
    hR.respected.sequenceEnclosed opening sep closing (elem.eval_rel h)
  | _, _, _, .sequence elem sep, _, _, h => sequence_rel (elem.eval_rel h) (sep.eval_rel h)
  | _, _, _, @Expr.parseMap _ _ _ _ _ M _ opening elemSep keyValueSep closing key val, _, _, h =>
    hR.respected.parseMap M opening elemSep keyValueSep closing (key.eval_rel h) (val.eval_rel h)
  | _, _, _, .recurse body, _, _, h =>
    recurse_rel (hR.kept _) fun _ _ hq => body.eval_rel (h.cons hq)
  | _, _, _, .recurseConstant body, _, _, h =>
    recurseConstant_rel (hR.kept _) fun _ _ hq => body.eval_rel (h.cons hq)

theorem Exprs.eval_rel : {Γ : List ValueType} → {gs : List Bool} → {Vs : List ValueType} →
    (es : Exprs Γ gs Vs) → {env env' : Env Γ} → Env.Rel R env env' →
    (es.eval mem env).Rel R (es.eval mem env')
  | _, _, _, .nil, _, _, _ => .nil
  | _, _, _, .cons p ps, _, _, h => .cons (p.eval_rel h) (ps.eval_rel h)

theorem Choices.eval_rel : {Γ : List ValueType} → {W : ValueType} → {gs : List Bool} →
    (es : Choices Γ W gs) → {env env' : Env Γ} → Env.Rel R env env' →
    (es.eval mem env).Rel R (es.eval mem env')
  | _, _, _, .nil, _, _, _ => .nil
  | _, _, _, .cons p conv ps, _, _, h => .cons conv (p.eval_rel h) (ps.eval_rel h)

end

end

section
set_option linter.unusedSectionVars false
variable {mem : Memory} {R : State → State → Prop} (hR : Admissible mem R)
  (hgood : ∀ s t, R s t → s.good = true ∧ t.good = true)
include hR hgood

mutual

/-- On non-null states the branches that the flags select do what checking every result does. -/
theorem Expr.evalChecked_rel : {Γ : List ValueType} → {g : Bool} → {V : ValueType} →
    (e : Expr Γ g V) → {env env' : Env Γ} → Env.Rel R env env' →
    (e.eval mem env).Rel R (e.evalChecked mem env')
  | _, _, _, .var x, _, _, h => h x
  | _, _, _, .intrinsic i, _, _, _ => (hR.intrinsic i).toFallible (keptAlike_of_good hgood _ _)
  | _, _, _, .map func p, _, _, h =>
    map_rel (keptAlike_of_good hgood _ _) func (p.evalChecked_rel h)
  | _, _, _, .shiftRight p1 p2, _, _, h =>
    shiftRight_rel (hR.kept _) (p1.evalChecked_rel h) (p2.evalChecked_rel h)
  | _, _, _, .enclose pre par post, _, _, h =>
    enclose_rel (hR.kept _) (pre.evalChecked_rel h) (par.evalChecked_rel h) (post.evalChecked_rel h)
  | _, _, _, .match_ ps, _, _, h =>
    (match_rel (keptAlike_of_good hgood _ _) (ps.evalChecked_rel h)).toFallible
      (keptAlike_of_good hgood _ _)
  | _, _, _, .join ps p, _, _, h =>
    (join_rel (hR.kept _) (keptAlike_of_good hgood _ _) (ps.evalChecked_rel h)
      (p.evalChecked_rel h)).toFallible (keptAlike_of_good hgood _ _)
  | _, _, _, .either ps, _, _, h =>
    (either_rel (keptAlike_of_good hgood _ _) (ps.evalChecked_rel h)).toFallible
      (keptAlike_of_good hgood _ _)
  | _, _, _, .make construct ps, _, _, h =>
    (make_rel construct (keptAlike_of_good hgood _ _) (ps.evalChecked_rel h)).toFallible
      (keptAlike_of_good hgood _ _)
  | _, _, _, .makeVariadic construct ps, _, _, h =>
    makeVariadic_rel construct (hR.kept _) (ps.evalChecked_rel h)
  | _, _, _, .makeWCoro construct ps, _, _, h =>
    makeWCoro_rel construct (hR.kept _) (ps.evalChecked_rel h)
  | _, _, _, .testThen p func, _, _, h =>
    (testThen_rel func (p.evalChecked_rel h)).toFallible (keptAlike_of_good hgood _ _)
  | _, _, _, .test p, _, _, h =>
    (test_rel (p.evalChecked_rel h)).toFallible (keptAlike_of_good hgood _ _)
  | _, _, _, .testLookahead p, _, _, h =>
    (test_rel (p.evalChecked_rel h)).toFallible (keptAlike_of_good hgood _ _)
  | _, _, _, .lookahead p, _, _, h =>
    lookahead_rel (keptAlike_of_good hgood _ _) (p.evalChecked_rel h)
  | _, _, _, .tryParse p, _, _, h =>
    (tryParse_rel (p.evalChecked_rel h)).toFallible (keptAlike_of_good hgood _ _)
  | _, _, _, .tryLookahead p, _, _, h =>
    (tryLookahead_rel (p.evalChecked_rel h)).toFallible (keptAlike_of_good hgood _ _)
  | _, _, _, .foldLeft initial rest op, _, _, h =>
    foldLeft_rel op (hR.kept _) (initial.evalChecked_rel h) (rest.evalChecked_rel h)
  | _, _, _, .sequenceSep sep elem, _, _, h =>
    (hR.respected.sequenceSep sep (elem.evalChecked_rel h)).toFallible (keptAlike_of_good hgood _ _)
  | _, _, _, .sequenceEnclosed opening sep closing elem, _, _, h =>
    hR.respected.sequenceEnclosed opening sep closing (elem.evalChecked_rel h)
  | _, _, _, .sequence elem sep, _, _, h =>
    (sequence_rel (elem.evalChecked_rel h) (sep.evalChecked_rel h)).toFallible
      (keptAlike_of_good hgood _ _)
  | _, _, _, @Expr.parseMap _ _ _ _ _ M _ opening elemSep keyValueSep closing key val, _, _, h =>
    hR.respected.parseMap M opening elemSep keyValueSep closing (key.evalChecked_rel h)
      (val.evalChecked_rel h)
  | _, _, _, .recurse body, _, _, h =>
    recurse_rel (hR.kept _) fun _ _ hq => body.evalChecked_rel (h.cons hq)
  | _, _, _, .recurseConstant body, _, _, h =>
    recurseConstant_rel (hR.kept _) fun _ _ hq => body.evalChecked_rel (h.cons hq)

theorem Exprs.evalChecked_rel : {Γ : List ValueType} → {gs : List Bool} → {Vs : List ValueType} →
    (es : Exprs Γ gs Vs) → {env env' : Env Γ} → Env.Rel R env env' →
    (es.eval mem env).Rel R (es.evalChecked mem env')
  | _, _, _, .nil, _, _, _ => .nil
  | _, _, _, .cons p ps, _, _, h => .cons (p.evalChecked_rel h) (ps.evalChecked_rel h)

theorem Choices.evalChecked_rel : {Γ : List ValueType} → {W : ValueType} → {gs : List Bool} →
    (es : Choices Γ W gs) → {env env' : Env Γ} → Env.Rel R env env' →
    (es.eval mem env).Rel R (es.evalChecked mem env')
  | _, _, _, .nil, _, _, _ => .nil
  | _, _, _, .cons p conv ps, _, _, h => .cons conv (p.evalChecked_rel h) (ps.evalChecked_rel h)

end

end

end Noam
