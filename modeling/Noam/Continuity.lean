import Noam.Expr
import Noam.Limit
import Noam.Recursion

/-!
# Recursion as a least fixpoint

Every combinator is continuous: the parser that it builds from limits is the limit of the parsers that
it builds. So `recurse` of any parser expression is the least fixpoint of the expression, on all states
and also where it never returns, whether or not the recursion is guarded.
-/

namespace Noam
open GetResult ValueType Loop Attempt

variable {U V W T : ValueType} {g g' : Bool} {gs : List Bool} {Vs Γ : List ValueType} {mem : Memory}
variable {β : Type}

/-- On every state the results of `p` are the limit of the results of `ps`. -/
def Parser.Limit (ps : Nat → Parser g V) (p : Parser g V) : Prop :=
  ∀ st, Loop.Limit (fun n => (ps n).parse st) (p.parse st)

inductive Parsers.Limit : {gs : List Bool} → {Vs : List ValueType} → (Nat → Parsers gs Vs) →
    Parsers gs Vs → Prop
  | nil : Limit (fun _ => .nil) .nil
  | cons {g : Bool} {V : ValueType} {gs : List Bool} {Vs : List ValueType} {ps : Nat → Parser g V}
      {p : Parser g V} {pss : Nat → Parsers gs Vs} {qs : Parsers gs Vs} (h : p.Limit ps)
      (hs : Limit pss qs) : Limit (fun n => .cons (ps n) (pss n)) (.cons p qs)

inductive Alternatives.Limit : {gs : List Bool} → (Nat → Alternatives W gs) → Alternatives W gs → Prop
  | nil : Limit (fun _ => .nil) .nil
  | cons {g : Bool} {V : ValueType} {gs : List Bool} {ps : Nat → Parser g V} {p : Parser g V}
      {pss : Nat → Alternatives W gs} {qs : Alternatives W gs} (conv : Conversion V W) (h : p.Limit ps)
      (hs : Limit pss qs) : Limit (fun n => .cons (ps n) conv (pss n)) (.cons p conv qs)

theorem Parser.limit_const (p : Parser g V) : p.Limit fun _ => p := fun st => .const (p.parse st)

theorem Parser.Limit.run {ps : Nat → Parser g V} {p : Parser g V} (h : p.Limit ps) :
    Attempt.Limit (fun n => (ps n).run) p.run := fun st => (h st).map outcome

theorem limit_ofAttempt {A : Nat → Attempt State V} {B : Attempt State V} (h : Attempt.Limit A B) :
    (Parser.ofAttempt g B).Limit fun n => Parser.ofAttempt g (A n) :=
  fun st => (h st).bind fun x => .const (ofOutcome x)

theorem Parser.Limit.toFallible {ps : Nat → Parser g V} {p : Parser g V} (h : p.Limit ps) :
    p.toFallible.Limit fun n => (ps n).toFallible := fun st => (h st).map GetResult.toResult

theorem Parsers.Limit.runAll {pss : Nat → Parsers gs Vs} {qs : Parsers gs Vs}
    (h : Parsers.Limit pss qs) : Attempt.Limit (fun n => (pss n).runAll) qs.runAll := by
  induction h with
  | nil => exact limit_const _
  | cons h _ ih => exact h.run.bind fun v => ih.map _

theorem Alternatives.Limit.runFirst {pss : Nat → Alternatives W gs} {qs : Alternatives W gs}
    (h : Alternatives.Limit pss qs) : Attempt.Limit (fun n => (pss n).runFirst) qs.runFirst := by
  induction h with
  | nil => exact limit_const _
  | cons conv h _ ih => exact (h.run.map _).orElse ih

/-! ### Combinators -/

section
variable {ps : Nat → Parser g V} {p : Parser g V} {pss : Nat → Parsers gs Vs} {qs : Parsers gs Vs}

theorem map_limit (func : V → W) (h : p.Limit ps) : (map func p).Limit fun n => map func (ps n) := by
  simp only [map_eq]
  exact limit_ofAttempt (h.run.map func)

theorem shiftRight_limit {rs : Nat → Parser g' W} {r : Parser g' W} (h : p.Limit ps) (hr : r.Limit rs) :
    (shiftRight p r).Limit fun n => shiftRight (ps n) (rs n) := by
  simp only [shiftRight_eq]
  exact limit_ofAttempt (h.run.bind fun _ => hr.run)

theorem enclose_limit {g₁ g₂ : Bool} {pres : Nat → Parser g₁ U} {pre : Parser g₁ U}
    {posts : Nat → Parser g₂ W} {post : Parser g₂ W} (hpre : pre.Limit pres) (h : p.Limit ps)
    (hpost : post.Limit posts) : (enclose pre p post).Limit fun n => enclose (pres n) (ps n) (posts n) := by
  simp only [enclose_eq]
  exact limit_ofAttempt (hpre.run.bind fun _ => h.run.bind fun v => hpost.run.map _)

theorem match_limit (h : Parsers.Limit pss qs) : (match_ qs).Limit fun n => match_ (pss n) := by
  simp only [match_eq]
  exact limit_ofAttempt (h.runAll.map _)

theorem limit_ifParse {yes : Nat → State → V → Option β} {yesLim : State → V → Option β}
    {no : Option β} (h : p.Limit ps) (hyes : ∀ st v, Loop.Limit (fun n => yes n st v) (yesLim st v))
    (st : State) :
    Loop.Limit (fun n => (ps n).ifParse st (yes n) no) (p.ifParse st yesLim no) := by
  refine (h st).bind fun r => ?_
  rcases r.outcome with _ | x
  · exact .const no
  · exact hyes x.1 x.2

theorem joinLast_limit {ms : Nat → Parser g' empty} {m : Parser g' empty} (hm : m.Limit ms)
    (h : p.Limit ps) : (joinLast m p).Limit fun n => joinLast (ms n) (ps n) := by
  intro st
  cases g'
  · exact limit_ifParse hm (fun st _ => (h st).bind fun r => .const (some r.toResult)) st
  · exact (hm st).bind fun r => h r.getState

theorem join_limit (hs : Parsers.Limit pss qs) (h : p.Limit ps) :
    (join qs p).Limit fun n => join (pss n) (ps n) := by
  cases hs with
  | nil => exact h
  | cons hq hs => exact joinLast_limit (match_limit (.cons hq hs)) h

theorem either_limit {pss : Nat → Alternatives W gs} {qs : Alternatives W gs}
    (h : Alternatives.Limit pss qs) : (either qs).Limit fun n => either (pss n) := by
  cases h with
  | nil => exact Parser.limit_const _
  | cons conv hp hs =>
    cases hs with
    | nil =>
      cases conv with
      | same => exact hp
      | convert f => exact map_limit f hp
    | cons conv' hp' hs =>
      simp only [either_eq]
      exact limit_ofAttempt (Alternatives.Limit.cons conv hp (.cons conv' hp' hs)).runFirst

theorem make_limit (construct : ValuesOf Vs → T) (h : Parsers.Limit pss qs) :
    (make construct qs).Limit fun n => make construct (pss n) := by
  simp only [make_eq]
  exact limit_ofAttempt (h.runAll.map construct)

theorem makeVariadic_limit (construct : ValuesOf Vs → T) (h : Parsers.Limit pss qs) :
    (makeVariadic construct qs).Limit fun n => makeVariadic construct (pss n) := by
  simp only [makeVariadic_eq]
  exact limit_ofAttempt (h.runAll.map construct)

theorem makeWCoro_limit (construct : ValuesOf Vs → T) (h : Parsers.Limit pss qs) :
    (makeWCoro construct qs).Limit fun n => makeWCoro construct (pss n) := by
  simp only [makeWCoro_eq]
  exact makeVariadic_limit construct h

theorem testThen_limit (func : V → Unit) (h : p.Limit ps) :
    (testThen p func).Limit fun n => testThen (ps n) func := by
  simp only [testThen_eq]
  exact limit_ofAttempt ((h.run.map _).orElse (limit_const _))

theorem tryParse_limit (h : p.Limit ps) : (tryParse p).Limit fun n => tryParse (ps n) := by
  simp only [tryParse_eq]
  exact limit_ofAttempt ((h.run.map _).orElse (limit_const _))

theorem tryLookahead_limit (h : p.Limit ps) : (tryLookahead p).Limit fun n => tryLookahead (ps n) := by
  simp only [tryLookahead_eq]
  exact limit_ofAttempt (h.run.peek.map _)

theorem lookahead_limit (h : p.Limit ps) : (lookahead p).Limit fun n => lookahead (ps n) :=
  fun st => (h st).bind fun r => .const (some (r.setState st))

theorem test_limit {ps : Nat → Parser g bool} {p : Parser g bool} (h : p.Limit ps) :
    (test p).Limit fun n => test (ps n) :=
  fun sv => (h sv).bind fun r => .const (some (PureResult.mk sv (r.getValue?.getD false)))

theorem foldLeft_limit {rs : Nat → Parser g' W} {r : Parser g' W} (op : V → W → V) (h : p.Limit ps)
    (hr : r.Limit rs) : (foldLeft p r op).Limit fun n => foldLeft (ps n) (rs n) op := by
  simp only [foldLeft_eq]
  exact limit_ofAttempt (h.run.bind fun a => .iterate (fun b => hr.run.map (op b)) a)

theorem sequence_limit {seps : Nat → Parser g' U} {sep : Parser g' U} (h : p.Limit ps)
    (hsep : sep.Limit seps) : (sequence p sep).Limit fun n => sequence (ps n) (seps n) := by
  simp only [sequence_eq]
  exact limit_ofAttempt (.sepBy hsep.run h.run [])

theorem sequenceSep_limit (sep : AnyLiteral) (h : p.Limit ps) :
    (sequenceSep mem sep p).Limit fun n => sequenceSep mem sep (ps n) := by
  simp only [sequenceSep_eq]
  exact sequence_limit h (Parser.limit_const _)

theorem sequenceEnclosed_limit (opening sep closing : AnyLiteral) (h : p.Limit ps) :
    (sequenceEnclosed mem opening sep closing p).Limit
      fun n => sequenceEnclosed mem opening sep closing (ps n) := by
  simp only [sequenceEnclosed_eq]
  exact limit_ofAttempt ((limit_const _).bind fun _ =>
    (Attempt.Limit.sepBy (limit_const _) h.run []).bind fun _ => limit_const _)

theorem makePair_limit {rs : Nat → Parser g' W} {r : Parser g' W} (sep : AnyLiteral) (h : p.Limit ps)
    (hr : r.Limit rs) : (makePair mem sep p r).Limit fun n => makePair mem sep (ps n) (rs n) :=
  makeVariadic_limit _ (.cons h (.cons (join_limit (.cons (Parser.limit_const _) .nil) hr) .nil))

theorem parseMap_limit {rs : Nat → Parser g' W} {r : Parser g' W} (M : Type) [EmplaceMap M V W]
    (opening elemSep keyValueSep closing : AnyLiteral) (h : p.Limit ps) (hr : r.Limit rs) :
    (parseMap mem M opening elemSep keyValueSep closing p r).Limit
      fun n => parseMap mem M opening elemSep keyValueSep closing (ps n) (rs n) := by
  simp only [parseMap_eq]
  exact limit_ofAttempt ((limit_const _).bind fun _ =>
    (Attempt.Limit.sepBy (limit_const _) (makePair_limit keyValueSep h hr).run _).bind
      fun _ => limit_const _)

end

/-! ### Fixpoints -/

/-- `func` keeps limits. -/
def ContinuousIn (func : Parser false T → Parser g T) : Prop :=
  ∀ qs q, Parser.Limit qs q → (func q).Limit fun n => func (qs n)

/-- The converted results of `func`, as a function of the results of its parser. -/
def onResults (func : Parser false T → Parser g T) (f : State → Option (Result T)) :
    State → Option (Result T) := (func ⟨f⟩).toFallible.parse

theorem parse_within (func : Parser false T → Parser g T) (depth : Nat) :
    (recurseConstantWithin func depth).parse = iterates (onResults func) depth := by
  induction depth with
  | zero => rfl
  | succ depth ih =>
    rw [recurseConstantWithin_succ, iterates, ← ih]
    rfl

theorem parse_recurseConstant (func : Parser false T → Parser g T) :
    (recurseConstant func).parse = lfp (onResults func) := by
  funext st
  show search _ = search _
  simp only [parse_within]

theorem parse_recurse (func : Parser false T → Parser g T) :
    (recurse func).parse = lfp (onResults func) := by
  rw [recurse_eq, parse_recurseConstant]

namespace ContinuousIn
variable {func : Parser false T → Parser g T} (h : ContinuousIn func)
include h

theorem continuous : Continuous (onResults func) :=
  fun fs f hf => (h (fun n => ⟨fs n⟩) ⟨f⟩ hf).toFallible

/-- `recurse` is the limit of the calls of bounded depth. -/
theorem limit_within : (recurseConstant func).Limit (recurseConstantWithin func) := by
  intro st
  simp only [parse_within, parse_recurseConstant]
  exact h.continuous.limit_lfp st

/-- `recurse(f)` is `f(recurse(f))` with its result converted, on every state and also where neither
of the two returns. -/
theorem recurse_eq_apply : recurse func = (func (recurse func)).toFallible := by
  refine Parser.ext fun st => (congrFun ((parse_recurse func).trans h.continuous.lfp_eq) st).trans ?_
  rw [← parse_recurse]
  rfl

/-- It is the least such parser: any other one returns what it returns. -/
theorem recurse_le {q : Parser false T} (hq : q = (func q).toFallible) (st : State) (r : Result T)
    (hr : (recurse func).parse st = some r) : q.parse st = some r := by
  rw [parse_recurse] at hr
  have hle : ∀ st r, onResults func q.parse st = some r → q.parse st = some r := by
    intro st r hr
    rw [hq]
    exact hr
  exact h.continuous.lfp_le hle st r hr

end ContinuousIn

theorem recurseConstant_limit {F : Nat → Parser false T → Parser g T}
    {f : Parser false T → Parser g T} (hn : ∀ n, ContinuousIn (F n)) (hf : ContinuousIn f)
    (h : ∀ qs q, Parser.Limit qs q → (f q).Limit fun n => F n (qs n)) :
    (recurseConstant f).Limit fun n => recurseConstant (F n) := by
  intro st
  simp only [parse_recurseConstant]
  exact limitOf_lfp (fun n => (hn n).continuous) hf.continuous
    (fun fs f hfs => (h (fun n => ⟨fs n⟩) ⟨f⟩ hfs).toFallible) st

/-! ### Expressions -/

def Env.Limit (envs : Nat → Env Γ) (env : Env Γ) : Prop :=
  ∀ {T : ValueType} (x : Var Γ T), (env x).Limit fun n => envs n x

theorem Env.limit_const (env : Env Γ) : Env.Limit (fun _ => env) env :=
  fun x => Parser.limit_const (env x)

theorem Env.Limit.cons {qs : Nat → Parser false T} {q : Parser false T} {envs : Nat → Env Γ}
    {env : Env Γ} (hq : q.Limit qs) (h : Env.Limit envs env) :
    Env.Limit (fun n => Env.cons (qs n) (envs n)) (Env.cons q env)
  | _, .zero => hq
  | _, .succ x => h x

mutual

theorem Expr.eval_limit : {Γ : List ValueType} → {g : Bool} → {V : ValueType} → (e : Expr Γ g V) →
    {envs : Nat → Env Γ} → {env : Env Γ} → Env.Limit envs env →
    (e.eval mem env).Limit fun n => e.eval mem (envs n)
  | _, _, _, .var x, _, _, h => h x
  | _, _, _, .intrinsic i, _, _, _ => Parser.limit_const (i.parser mem)
  | _, _, _, .map func p, _, _, h => map_limit func (p.eval_limit h)
  | _, _, _, .shiftRight p1 p2, _, _, h => shiftRight_limit (p1.eval_limit h) (p2.eval_limit h)
  | _, _, _, .enclose pre par post, _, _, h =>
    enclose_limit (pre.eval_limit h) (par.eval_limit h) (post.eval_limit h)
  | _, _, _, .match_ ps, _, _, h => match_limit (ps.eval_limit h)
  | _, _, _, .join ps p, _, _, h => join_limit (ps.eval_limit h) (p.eval_limit h)
  | _, _, _, .either ps, _, _, h => either_limit (ps.eval_limit h)
  | _, _, _, .make construct ps, _, _, h => make_limit construct (ps.eval_limit h)
  | _, _, _, .makeVariadic construct ps, _, _, h => makeVariadic_limit construct (ps.eval_limit h)
  | _, _, _, .makeWCoro construct ps, _, _, h => makeWCoro_limit construct (ps.eval_limit h)
  | _, _, _, .testThen p func, _, _, h => testThen_limit func (p.eval_limit h)
  | _, _, _, .test p, _, _, h => test_limit (p.eval_limit h)
  | _, _, _, .testLookahead p, _, _, h => test_limit (p.eval_limit h)
  | _, _, _, .lookahead p, _, _, h => lookahead_limit (p.eval_limit h)
  | _, _, _, .tryParse p, _, _, h => tryParse_limit (p.eval_limit h)
  | _, _, _, .tryLookahead p, _, _, h => tryLookahead_limit (p.eval_limit h)
  | _, _, _, .foldLeft initial rest op, _, _, h =>
    foldLeft_limit op (initial.eval_limit h) (rest.eval_limit h)
  | _, _, _, .sequenceSep sep elem, _, _, h => sequenceSep_limit sep (elem.eval_limit h)
  | _, _, _, .sequenceEnclosed opening sep closing elem, _, _, h =>
    sequenceEnclosed_limit opening sep closing (elem.eval_limit h)
  | _, _, _, .sequence elem sep, _, _, h => sequence_limit (elem.eval_limit h) (sep.eval_limit h)
  | _, _, _, @Expr.parseMap _ _ _ _ _ M _ opening elemSep keyValueSep closing key val, _, _, h =>
    parseMap_limit M opening elemSep keyValueSep closing (key.eval_limit h) (val.eval_limit h)
  | _, _, _, .recurse body, envs, env, h => by
    -- the environments and the depth of the calls grow together; each alone is a limit, too
    have hlim := recurseConstant_limit (F := fun n q => body.eval mem (Env.cons q (envs n)))
      (f := fun q => body.eval mem (Env.cons q env))
      (fun n _ _ hq => body.eval_limit (Env.Limit.cons hq (Env.limit_const (envs n))))
      (fun _ _ hq => body.eval_limit (Env.Limit.cons hq (Env.limit_const env)))
      fun _ _ hq => body.eval_limit (Env.Limit.cons hq h)
    simp only [← recurse_eq] at hlim
    exact hlim
  | _, _, _, .recurseConstant body, envs, env, h =>
    recurseConstant_limit (F := fun n q => body.eval mem (Env.cons q (envs n)))
      (f := fun q => body.eval mem (Env.cons q env))
      (fun n _ _ hq => body.eval_limit (Env.Limit.cons hq (Env.limit_const (envs n))))
      (fun _ _ hq => body.eval_limit (Env.Limit.cons hq (Env.limit_const env)))
      fun _ _ hq => body.eval_limit (Env.Limit.cons hq h)

theorem Exprs.eval_limit : {Γ : List ValueType} → {gs : List Bool} → {Vs : List ValueType} →
    (es : Exprs Γ gs Vs) → {envs : Nat → Env Γ} → {env : Env Γ} → Env.Limit envs env →
    Parsers.Limit (fun n => es.eval mem (envs n)) (es.eval mem env)
  | _, _, _, .nil, _, _, _ => .nil
  | _, _, _, .cons p ps, _, _, h => .cons (p.eval_limit h) (ps.eval_limit h)

theorem Choices.eval_limit : {Γ : List ValueType} → {W : ValueType} → {gs : List Bool} →
    (es : Choices Γ W gs) → {envs : Nat → Env Γ} → {env : Env Γ} → Env.Limit envs env →
    Alternatives.Limit (fun n => es.eval mem (envs n)) (es.eval mem env)
  | _, _, _, .nil, _, _, _ => .nil
  | _, _, _, .cons p conv ps, _, _, h => .cons conv (p.eval_limit h) (ps.eval_limit h)

end

/-- The function of a parser that a body with one more reference is. -/
def Expr.bodyOf (mem : Memory) (body : Expr (T :: Γ) g T) (env : Env Γ) (q : Parser false T) :
    Parser g T := body.eval mem (Env.cons q env)

theorem Expr.continuousIn (mem : Memory) (body : Expr (T :: Γ) g T) (env : Env Γ) :
    ContinuousIn (body.bodyOf mem env) :=
  fun _ _ hq => body.eval_limit (Env.Limit.cons hq (Env.limit_const env))

/-- `recurse` of any body is the least parser that is the body with itself for the reference: both
return on the same states, and any other such parser returns whatever it returns. -/
theorem recurse_leastFixpoint (mem : Memory) (body : Expr (T :: Γ) g T) (env : Env Γ) :
    (Expr.recurse body).eval mem env =
        (body.eval mem (Env.cons ((Expr.recurse body).eval mem env) env)).toFallible ∧
      ∀ q : Parser false T, q = (body.eval mem (Env.cons q env)).toFallible → ∀ st r,
        ((Expr.recurse body).eval mem env).parse st = some r → q.parse st = some r :=
  ⟨(body.continuousIn mem env).recurse_eq_apply,
    fun _ hq st r hr => (body.continuousIn mem env).recurse_le hq st r hr⟩

/-- A boolean, or else once more the same. -/
def boolOrSelf : Expr [bool] false bool :=
  .either (.cons (.intrinsic .parseBool) .same (.cons (.var .zero) .same .nil))

theorem either_bool_self (mem : Memory) :
    let q : Parser false bool := .ofAttempt false (boolParser mem).run
    q = (either (.cons (boolParser mem) .same (.cons q .same .nil))).toFallible := by
  intro q
  have hq : q.run = (boolParser mem).run := run_ofAttempt_run _
  have hself : orElse (boolParser mem).run (boolParser mem).run = (boolParser mem).run := by
    funext st
    rcases h : (boolParser mem).run st with _ | _ | x
    · exact orElse_none h
    · rw [orElse_fail h, h]
    · exact orElse_some h
  have hsame : ∀ A : Attempt State bool, Attempt.map (Conversion.same (V := bool)).apply A = A :=
    fun A => map_id A
  have hfirst : (Alternatives.cons (boolParser mem) .same (.cons q .same .nil)).runFirst =
      (boolParser mem).run := by
    rw [Alternatives.runFirst, Alternatives.runFirst, Alternatives.runFirst, orElse_fail_right, hsame,
      hsame, hq, hself]
  refine Eq.trans ?_ (toFallible_of_fallible (either (.cons (boolParser mem) .same (.cons q .same .nil)))).symm
  exact (congrArg (Parser.ofAttempt false) hfirst.symm).trans
    (either₂_eq (boolParser mem) .same q .same).symm

theorem boolOrSelf_fixpoint (mem : Memory) :
    let q : Parser false bool := .ofAttempt false (boolParser mem).run
    q = (boolOrSelf.eval mem (Env.cons q Env.nil)).toFallible := either_bool_self mem

/-- Where there is no boolean it never returns, and a parser that fails there is a fixpoint, too. -/
theorem recurse_leastFixpoint_bool :
    let mem := Memory.ofText [ch 't', ch 'r', ch 'u', ch 'e']
    (Parser.ofAttempt false (boolParser mem).run).parse (State.ofLength 4) =
      some (Result.of ((State.ofLength 4).removePrefix 4) true) := by
  intro mem
  refine (recurse_leastFixpoint mem boolOrSelf Env.nil).2 _ (boolOrSelf_fixpoint mem) _ _ ?_
  rw [Expr.eval, recurse_eq]
  exact (boolOrSelf.continuousIn mem Env.nil).limit_within _ |>.bound 1 _ rfl

end Noam
