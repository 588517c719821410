import Noam.Continuity

/-!
# Mutual recursion

Two parsers that refer to each other are written with one `recurse` in the other: the function of the outer
one makes the inner one of its own reference. The two are the least solution of both bodies together, so
it makes no difference which of them is nested in the other.
-/

namespace Noam
open ValueType Loop

variable {U V T : ValueType} {g g' : Bool} {Γ : List ValueType}

/-- The parser of `func`, whose second reference is the parser that `inner` makes of the first one. -/
def recurseWith (func : Parser false T → Parser false U → Parser g T)
    (inner : Parser false T → Parser false U → Parser g' U) : Parser false T :=
  recurse fun self => func self (recurse (inner self))

/-- `func` keeps limits in both parsers. -/
def ContinuousIn₂ (func : Parser false T → Parser false U → Parser g V) : Prop :=
  ∀ ps p qs q, Parser.Limit ps p → Parser.Limit qs q → (func p q).Limit fun n => func (ps n) (qs n)

/-- The converted results of `func`, as a function of the results of its parsers. -/
def onResults₂ (func : Parser false T → Parser false U → Parser g V)
    (f : State → Option (Result T)) (f' : State → Option (Result U)) : State → Option (Result V) :=
  (func ⟨f⟩ ⟨f'⟩).toFallible.parse

namespace ContinuousIn₂
variable {func : Parser false T → Parser false U → Parser g V} (h : ContinuousIn₂ func)
include h

theorem flip : ContinuousIn₂ (flip func) := fun qs q ps p hq hp => h ps p qs q hp hq

theorem continuous : Continuous₂ (onResults₂ func) :=
  fun fs f fs' f' hf hf' => (h (fun n => ⟨fs n⟩) ⟨f⟩ (fun n => ⟨fs' n⟩) ⟨f'⟩ hf hf').toFallible

end ContinuousIn₂

section
variable {func₁ : Parser false T → Parser false U → Parser g T}
  {func₂ : Parser false T → Parser false U → Parser g' U}

theorem parse_inner (p : Parser false T) :
    (recurse (func₂ p)).parse = lfp (onResults₂ func₂ p.parse) := parse_recurse (func₂ p)

theorem parse_recurseWith :
    (recurseWith func₁ func₂).parse = nested (onResults₂ func₁) (onResults₂ func₂) := by
  rw [recurseWith, parse_recurse]
  refine congrArg lfp (funext fun f => ?_)
  rw [← parse_inner ⟨f⟩]
  rfl

/-- The inner parser of the one is the outer parser of the other. -/
theorem recurse_inner (h₁ : ContinuousIn₂ func₁) (h₂ : ContinuousIn₂ func₂) :
    recurse (func₂ (recurseWith func₁ func₂)) = recurseWith (flip func₂) (flip func₁) := by
  refine Parser.ext fun st => congrFun ?_ st
  rw [parse_inner, parse_recurseWith, parse_recurseWith]
  exact lfp_nested h₁.continuous h₂.continuous

theorem recurseWith_eq (h₁ : ContinuousIn₂ func₁) (h₂ : ContinuousIn₂ func₂) :
    recurseWith func₁ func₂ =
      (func₁ (recurseWith func₁ func₂) (recurseWith (flip func₂) (flip func₁))).toFallible := by
  refine Parser.ext fun st => ?_
  have heq := nested_eq h₁.continuous h₂.continuous
  rw [← parse_recurseWith, ← parse_inner, recurse_inner h₁ h₂] at heq
  exact congrFun heq st

theorem recurseWith_le (h₁ : ContinuousIn₂ func₁) (h₂ : ContinuousIn₂ func₂) {p : Parser false T}
    {q : Parser false U} (hp : p = (func₁ p q).toFallible) (hq : q = (func₂ p q).toFallible) (st : State)
    (r : Result T) (hr : (recurseWith func₁ func₂).parse st = some r) : p.parse st = some r := by
  rw [parse_recurseWith] at hr
  have hf : ∀ st r, onResults₂ func₁ p.parse q.parse st = some r → p.parse st = some r := by
    intro st r hr
    rw [hp]
    exact hr
  have hg : ∀ st r, onResults₂ func₂ p.parse q.parse st = some r → q.parse st = some r := by
    intro st r hr
    rw [hq]
    exact hr
  exact (nested_le h₁.continuous h₂.continuous hf hg).1 st r hr

end

/-- The function of two parsers that a body with two more references is. -/
def Expr.bodyOf₂ (mem : Memory) (body : Expr (U :: T :: Γ) g V) (env : Env Γ) (p : Parser false T)
    (q : Parser false U) : Parser g V := body.eval mem (Env.cons q (Env.cons p env))

theorem Expr.continuousIn₂ (mem : Memory) (body : Expr (U :: T :: Γ) g V) (env : Env Γ) :
    ContinuousIn₂ (body.bodyOf₂ mem env) :=
  fun _ _ _ _ hp hq => body.eval_limit (Env.Limit.cons hq (Env.Limit.cons hp (Env.limit_const env)))

/-- Two bodies with references to both parsers: nested in either order, `recurse` makes of them the same
two parsers, the least that are the bodies with themselves for the references. -/
theorem mutual_recursion (mem : Memory) (body₁ : Expr (U :: T :: Γ) g T)
    (body₂ : Expr (U :: T :: Γ) g' U) (env : Env Γ) :
    let func₁ := body₁.bodyOf₂ mem env
    let func₂ := body₂.bodyOf₂ mem env
    let first := recurse fun p => func₁ p (recurse fun q => func₂ p q)
    let second := recurse fun q => func₂ (recurse fun p => func₁ p q) q
    first = recurse (fun p => func₁ p second) ∧ second = recurse (fun q => func₂ first q) ∧
      first = (func₁ first second).toFallible ∧ second = (func₂ first second).toFallible ∧
      ∀ p q, p = (func₁ p q).toFallible → q = (func₂ p q).toFallible → ∀ st,
        (∀ r, first.parse st = some r → p.parse st = some r) ∧
          ∀ r, second.parse st = some r → q.parse st = some r := by
  intro func₁ func₂ first second
  have h₁ : ContinuousIn₂ func₁ := body₁.continuousIn₂ mem env
  have h₂ : ContinuousIn₂ func₂ := body₂.continuousIn₂ mem env
  refine ⟨(recurse_inner h₂.flip h₁.flip).symm, (recurse_inner h₁ h₂).symm, recurseWith_eq h₁ h₂,
    recurseWith_eq h₂.flip h₁.flip, ?_⟩
  intro p q hp hq st
  exact ⟨recurseWith_le h₁ h₂ hp hq st, recurseWith_le h₂.flip h₁.flip hq hp st⟩

/-- A boolean, or else the other parser. -/
def boolOrOther : Expr [bool, bool] false bool :=
  .either (.cons (.intrinsic .parseBool) .same (.cons (.var .zero) .same .nil))

/-- With a second parser that is the first one. -/
theorem mutual_recursion_bool :
    let mem := Memory.ofText [ch 't', ch 'r', ch 'u', ch 'e']
    (Parser.ofAttempt false (boolParser mem).run).parse (State.ofLength 4) =
      some (Result.of ((State.ofLength 4).removePrefix 4) true) := by
  intro mem
  let p : Parser false bool := .ofAttempt false (boolParser mem).run
  have hmutual := mutual_recursion mem boolOrOther (.var (.succ .zero) : Expr [bool, bool] false bool) Env.nil
  obtain ⟨_, _, hfirst, _, hleast⟩ := hmutual
  refine (hleast p p (either_bool_self mem) (toFallible_of_fallible p).symm (State.ofLength 4)).1 _ ?_
  rw [hfirst]
  rfl

end Noam
