import Noam.Consumption

/-!
# Left recursion

`e.calls` says that an expression uses a reference before anything else. A recursion whose body uses it
so never returns, whatever the input.
-/

namespace Noam
open GetResult ValueType Loop Attempt

variable {U V W T : ValueType} {g g' : Bool} {gs : List Bool} {Vs Γ : List ValueType} {mem : Memory}
variable {st : State} {α : Type}

mutual

/-- The first thing that the expression does is to use one of the references that `c` names, or to
recurse without end. -/
def Expr.calls : {Γ : List ValueType} → {g : Bool} → {V : ValueType} → Expr Γ g V → OfVars Γ Bool → Bool
  | _, _, _, .var x, c => c _ x
  | _, _, _, .intrinsic _, _ => false
  | _, _, _, .map _ p, c => p.calls c
  | _, _, _, .shiftRight p1 _, c => p1.calls c
  | _, _, _, .enclose pre _ _, c => pre.calls c
  | _, _, _, .match_ ps, c => ps.calls c
  | _, _, _, @Expr.join _ gs _ _ _ ps p, c => if gs.isEmpty then p.calls c else ps.calls c
  | _, _, _, .either ps, c => ps.calls c
  | _, _, _, .make _ ps, c => ps.calls c
  | _, _, _, .makeVariadic _ ps, c => ps.calls c
  | _, _, _, .makeWCoro _ ps, c => ps.calls c
  | _, _, _, .testThen p _, c => p.calls c
  | _, _, _, .test p, c => p.calls c
  | _, _, _, .testLookahead p, c => p.calls c
  | _, _, _, .lookahead p, c => p.calls c
  | _, _, _, .tryParse p, c => p.calls c
  | _, _, _, .tryLookahead p, c => p.calls c
  | _, _, _, .foldLeft initial _ _, c => initial.calls c
  | _, _, _, .sequenceSep _ elem, c => elem.calls c
  | _, _, _, .sequenceEnclosed _ _ _ _, _ => false
  | _, _, _, .sequence elem _, c => elem.calls c
  | _, _, _, @Expr.parseMap _ _ _ _ _ _ _ _ _ _ _ _ _, _ => false
  | _, _, _, .recurse body, c => body.calls (c.cons true)
  | _, _, _, .recurseConstant body, c => body.calls (c.cons true)

def Exprs.calls : {Γ : List ValueType} → {gs : List Bool} → {Vs : List ValueType} → Exprs Γ gs Vs →
    OfVars Γ Bool → Bool
  | _, _, _, .nil, _ => false
  | _, _, _, .cons p _, c => p.calls c

def Choices.calls : {Γ : List ValueType} → {W : ValueType} → {gs : List Bool} → Choices Γ W gs →
    OfVars Γ Bool → Bool
  | _, _, _, .nil, _ => false
  | _, _, _, .cons p _ _, c => p.calls c

end

theorem run_ofAttempt_none {A : Attempt State V} (h : A st = none) :
    (Parser.ofAttempt g A).run st = none := by
  rw [run_ofAttempt, h]; rfl

/-- No depth of nested calls has a result. -/
theorem run_recurse_none {func : Parser false T → Parser g T}
    (h : ∀ q : Parser false T, q.run st = none → (func q).run st = none) :
    (recurse func).run st = none := by
  have hwithin : ∀ depth, (recurseConstantWithin func depth).run st = none := by
    intro depth
    induction depth with
    | zero => rfl
    | succ depth ih => rw [recurseConstantWithin_succ, run_toFallible, h _ ih]; rfl
  rw [run_recurse]
  rcases hs : search fun depth => (recurseConstantWithin func depth).run st with _ | o
  · rfl
  · obtain ⟨depth, hdepth, -⟩ := search_eq_some_iff.1 hs
    rw [hwithin depth] at hdepth
    cases hdepth

theorem calls_cons {c : OfVars Γ Bool} {env : Env Γ} {q : Parser false T} (hq : q.run st = none)
    (h : ∀ (T : ValueType) (x : Var Γ T), c T x = true → (env x).run st = none) :
    ∀ (U : ValueType) (x : Var (T :: Γ) U), c.cons true U x = true → (Env.cons q env x).run st = none
  | _, .zero, _ => hq
  | _, .succ x, hx => h _ x hx

section
variable {p : Parser g V}

theorem run_joinLast_none {m : Parser g' empty} (h : m.run st = none) : (joinLast m p).run st = none := by
  cases g'
  · rw [run_joinLast, bind_none h]
  · rw [run_joinLast_good, bind_none h]

theorem run_join_none {ps : Parsers gs Vs}
    (h : gs.isEmpty = true ∧ p.run st = none ∨ gs.isEmpty = false ∧ ps.runAll st = none) :
    (join ps p).run st = none := by
  cases ps with
  | nil => exact h.elim (fun h => h.2) fun h => by cases h.1
  | cons q qs =>
    obtain ⟨h, -⟩ | ⟨-, h⟩ := h
    · cases h
    · refine run_joinLast_none ?_
      rw [match_eq]
      exact run_ofAttempt_none (bind_none h)

theorem run_lookahead_none (h : p.run st = none) : (lookahead p).run st = none := by
  rw [Parser.run, Option.map_eq_none_iff] at h ⊢
  show (p.parse st).bind _ = none
  rw [h]; rfl

theorem run_test_none {p : Parser g bool} (h : p.run st = none) : (test p).run st = none := by
  rw [Parser.run, Option.map_eq_none_iff] at h ⊢
  show (p.parse st).bind _ = none
  rw [h]; rfl

theorem sepBy_none {A : Attempt State α} {β X : Type} {sep : Attempt State β} {push : X → α → X} {x : X}
    (h : A st = none) : sepBy sep A push x st = none := orElse_none (bind_none h)

end

mutual

theorem Expr.run_eval_none : {Γ : List ValueType} → {g : Bool} → {V : ValueType} → (e : Expr Γ g V) →
    {c : OfVars Γ Bool} → {env : Env Γ} → {st : State} → e.calls c = true →
    (∀ (T : ValueType) (x : Var Γ T), c T x = true → (env x).run st = none) →
    (e.eval mem env).run st = none
  | _, _, _, .var x, _, _, _, he, h => h _ x he
  -- these run no reference first
  | _, _, _, .intrinsic _, _, _, _, he, _ => by cases he
  | _, _, _, .sequenceEnclosed _ _ _ _, _, _, _, he, _ => by cases he
  | _, _, _, @Expr.parseMap _ _ _ _ _ _ _ _ _ _ _ _ _, _, _, _, he, _ => by cases he
  | _, _, _, .map func p, _, _, _, he, h => by
    rw [Expr.eval, map_eq]
    exact run_ofAttempt_none (bind_none (p.run_eval_none he h))
  | _, _, _, .shiftRight p1 p2, _, _, _, he, h => by
    show (shiftRight _ _).run _ = none
    rw [shiftRight_eq]
    exact run_ofAttempt_none (bind_none (p1.run_eval_none he h))
  | _, _, _, .enclose pre par post, _, _, _, he, h => by
    rw [Expr.eval, enclose_eq]
    exact run_ofAttempt_none (bind_none (pre.run_eval_none he h))
  | _, _, _, .match_ ps, _, _, _, he, h => by
    rw [Expr.eval, match_eq]
    exact run_ofAttempt_none (bind_none (ps.runAll_none he h))
  | _, _, _, @Expr.join _ gs _ _ _ ps p, c, env, st, he, h => by
    -- `join` of one parser runs that one, and of more the first
    unfold Expr.calls at he
    split at he
    · exact run_join_none (.inl ⟨‹_›, p.run_eval_none he h⟩)
    · exact run_join_none (.inr ⟨by simpa using ‹¬ gs.isEmpty = true›, ps.runAll_none he h⟩)
  | _, _, _, .either ps, _, _, _, he, h => by
    rw [Expr.eval, run_either]
    exact run_ofAttempt_none (ps.runFirst_none he h)
  | _, _, _, .make construct ps, _, _, _, he, h => by
    rw [Expr.eval, make_eq]
    exact run_ofAttempt_none (bind_none (ps.runAll_none he h))
  | _, _, _, .makeVariadic construct ps, _, _, _, he, h => by
    rw [Expr.eval, makeVariadic_eq]
    exact run_ofAttempt_none (bind_none (ps.runAll_none he h))
  | _, _, _, .makeWCoro construct ps, _, _, _, he, h => by
    rw [Expr.eval, makeWCoro_eq, makeVariadic_eq]
    exact run_ofAttempt_none (bind_none (ps.runAll_none he h))
  | _, _, _, .testThen p func, _, _, _, he, h => by
    rw [Expr.eval, testThen_eq]
    exact run_ofAttempt_none (orElse_none (bind_none (p.run_eval_none he h)))
  | _, _, _, .test p, _, _, _, he, h => run_test_none (p.run_eval_none he h)
  | _, _, _, .testLookahead p, _, _, _, he, h => run_test_none (p.run_eval_none he h)
  | _, _, _, .lookahead p, _, _, _, he, h => run_lookahead_none (p.run_eval_none he h)
  | _, _, _, .tryParse p, _, _, _, he, h => by
    rw [Expr.eval, tryParse_eq]
    exact run_ofAttempt_none (orElse_none (bind_none (p.run_eval_none he h)))
  | _, _, _, .tryLookahead p, _, _, _, he, h => by
    rw [Expr.eval, tryLookahead_eq]
    refine run_ofAttempt_none (bind_none ?_)
    rw [peek, p.run_eval_none he h]; rfl
  | _, _, _, .foldLeft initial rest op, _, _, _, he, h => by
    rw [Expr.eval, foldLeft_eq]
    exact run_ofAttempt_none (bind_none (initial.run_eval_none he h))
  | _, _, _, .sequenceSep sep elem, _, _, _, he, h => by
    rw [Expr.eval, sequenceSep_eq, sequence_eq]
    exact run_ofAttempt_none (sepBy_none (elem.run_eval_none he h))
  | _, _, _, .sequence elem sep, _, _, _, he, h => by
    rw [Expr.eval, sequence_eq]
    exact run_ofAttempt_none (sepBy_none (elem.run_eval_none he h))
  -- the calls of an inner recursion do not return either, at any depth
  | _, _, _, .recurse body, c, env, st, he, h =>
    run_recurse_none fun q hq => body.run_eval_none he (calls_cons hq h)
  | _, _, _, .recurseConstant body, _, _, _, he, h => by
    rw [Expr.eval, ← recurse_eq]
    exact run_recurse_none fun q hq => body.run_eval_none he (calls_cons hq h)

theorem Exprs.runAll_none : {Γ : List ValueType} → {gs : List Bool} → {Vs : List ValueType} →
    (es : Exprs Γ gs Vs) → {c : OfVars Γ Bool} → {env : Env Γ} → {st : State} → es.calls c = true →
    (∀ (T : ValueType) (x : Var Γ T), c T x = true → (env x).run st = none) →
    (es.eval mem env).runAll st = none
  | _, _, _, .cons p _, _, _, _, he, h => bind_none (p.run_eval_none he h)

theorem Choices.runFirst_none : {Γ : List ValueType} → {W : ValueType} → {gs : List Bool} →
    (es : Choices Γ W gs) → {c : OfVars Γ Bool} → {env : Env Γ} → {st : State} → es.calls c = true →
    (∀ (T : ValueType) (x : Var Γ T), c T x = true → (env x).run st = none) →
    (es.eval mem env).runFirst st = none
  | _, _, _, .cons p _ _, _, _, _, he, h => orElse_none (bind_none (p.run_eval_none he h))

end

/-- A recursion that uses itself before anything else never returns, on any input. -/
theorem left_recursion_diverges (mem : Memory) (body : Expr [T] g T)
    (h : (Expr.recurse body).calls .nil = true) (st : State) :
    ((Expr.recurse body).eval mem Env.nil).parse st = none := by
  have hrun : ((Expr.recurse body).eval mem Env.nil).run st = none :=
    (Expr.recurse body).run_eval_none h fun _ x => nomatch x
  rwa [Parser.run, Option.map_eq_none_iff] at hrun

/-- A sum that starts with a sum, or else with a boolean. -/
theorem left_recursion_diverges_sum :
    ((Expr.recurse (.either (.cons (.shiftRight (.var .zero)
      (.shiftRight (.intrinsic (.literal [.charLiteral (ch '+')])) (.intrinsic .parseBool))) .same
        (.cons (.intrinsic .parseBool) .same .nil)))).eval (Memory.ofText [ch 't', ch 'r', ch 'u', ch 'e'])
      Env.nil : Parser false ValueType.bool).parse (State.ofLength 4) = none :=
  left_recursion_diverges (T := bool) _ _ rfl _

end Noam
