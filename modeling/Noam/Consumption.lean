import Noam.Expr
import Noam.Recursion

/-!
# What a success of an expression takes

`e.takes` counts the characters that a success of an expression takes at least, from the literals in it.
-/

namespace Noam
open GetResult ValueType Loop Attempt

variable {U V W T : ValueType} {g g' : Bool} {gs : List Bool} {Vs Γ : List ValueType} {mem : Memory}
variable {st t : State} {n k : Nat} {α : Type}

/-- The least size of a literal in the list. -/
def AnyLiteral.minSize (lits : List AnyLiteral) : Nat := (lits.map AnyLiteral.size).min?.getD 0

/-- The least number of characters that a success of the parser takes. -/
def Intrinsic.takes : {g : Bool} → {V : ValueType} → Intrinsic g V → Nat
  | _, _, charconv _ => 1
  | _, _, literal lits => AnyLiteral.minSize lits
  | _, _, literalMakes _ _ lits => AnyLiteral.minSize lits
  | _, _, literalConstant _ lits => AnyLiteral.minSize lits
  | _, _, separator sep => AnyLiteral.minSize sep
  | _, _, parseBool => 4
  | _, _, viewParser begin_ end_ _ => begin_.size + end_.size
  | _, _, _ => 0

/-- Something known of every reference. -/
def OfVars (Γ : List ValueType) (α : Type) := (T : ValueType) → Var Γ T → α

namespace OfVars
variable {α : Type}

def nil : OfVars [] α := fun _ x => nomatch x

def cons (a : α) (m : OfVars Γ α) : OfVars (T :: Γ) α
  | _, .zero => a
  | _, .succ x => m _ x

end OfVars

mutual

/-- The least number of characters that a success takes, given what the references take. -/
def Expr.takes : {Γ : List ValueType} → {g : Bool} → {V : ValueType} → Expr Γ g V → OfVars Γ Nat → Nat
  | _, _, _, .var x, m => m _ x
  | _, _, _, .intrinsic i, _ => i.takes
  | _, _, _, .map _ p, m => p.takes m
  | _, _, _, .shiftRight p1 p2, m => p1.takes m + p2.takes m
  | _, _, _, .enclose pre par post, m => pre.takes m + (par.takes m + post.takes m)
  | _, _, _, .match_ ps, m => ps.takes m
  | _, _, _, .join ps p, m => ps.takes m + p.takes m
  | _, _, _, .either ps, m => ps.takes m
  | _, _, _, .make _ ps, m => ps.takes m
  | _, _, _, .makeVariadic _ ps, m => ps.takes m
  | _, _, _, .makeWCoro _ ps, m => ps.takes m
  | _, _, _, .foldLeft initial _ _, m => initial.takes m
  | _, _, _, .sequenceEnclosed opening _ closing _, _ => opening.size + closing.size
  | _, _, _, @Expr.parseMap _ _ _ _ _ _ _ opening _ _ closing _ _, _ => opening.size + closing.size
  | _, _, _, .recurse body, m => body.takes (m.cons 0)
  | _, _, _, .recurseConstant body, m => body.takes (m.cons 0)
  -- the state may be the old one
  | _, _, _, .testThen _ _, _ => 0
  | _, _, _, .test _, _ => 0
  | _, _, _, .testLookahead _, _ => 0
  | _, _, _, .lookahead _, _ => 0
  | _, _, _, .tryParse _, _ => 0
  | _, _, _, .tryLookahead _, _ => 0
  | _, _, _, .sequenceSep _ _, _ => 0
  | _, _, _, .sequence _ _, _ => 0

def Exprs.takes : {Γ : List ValueType} → {gs : List Bool} → {Vs : List ValueType} → Exprs Γ gs Vs →
    OfVars Γ Nat → Nat
  | _, _, _, .nil, _ => 0
  | _, _, _, .cons p ps, m => p.takes m + ps.takes m

def Choices.takes : {Γ : List ValueType} → {W : ValueType} → {gs : List Bool} → Choices Γ W gs →
    OfVars Γ Nat → Nat
  | _, _, _, .nil, _ => 0
  | _, _, _, @Choices.cons _ _ _ _ gs p _ ps, m =>
    if gs.isEmpty then p.takes m else min (p.takes m) (ps.takes m)

end

/-! ### What a success takes -/

theorem AnyLiteral.minSize_le {lits : List AnyLiteral} {lit : AnyLiteral} (h : lit ∈ lits) :
    minSize lits ≤ lit.size := List.min?_getD_le_of_mem (List.mem_map_of_mem h)

theorem literalText_takes {lits : List AnyLiteral} {v w : V} {text : List UInt8}
    (h : literalText lits v text = some (some (k, w))) : AnyLiteral.minSize lits ≤ k := by
  obtain ⟨lit, hlit, heq⟩ := Option.map_eq_some_iff.1 (Option.some.inj h)
  cases heq
  exact AnyLiteral.minSize_le (List.mem_of_find?_eq_some hlit)

/-- The scan of `view_parser` ends behind an end literal. -/
theorem viewTextRound_takes {end_ escape : AnyLiteral} {view v : List UInt8}
    (h : loop (viewTextRound end_ escape view) n = some (some (k, v))) : end_.size ≤ k := by
  refine loop_induct (k := viewTextRound end_ escape view)
    (motive := fun _ o => ∀ x, o = some x → end_.size ≤ x.1)
    (fun n o hr x ho => ?_) (fun _ _ _ _ ih => ih) h _ rfl
  subst ho
  unfold viewTextRound at hr
  split at hr
  · split at hr
    · cases hr
      exact Nat.le_add_left _ _
    · split at hr
      · split at hr <;> cases hr
      · cases hr
  · cases hr

theorem viewText_takes {begin_ end_ escape : AnyLiteral} {text v : List UInt8}
    (h : viewText begin_ end_ escape text = some (some (k, v))) : begin_.size + end_.size ≤ k := by
  unfold viewText at h
  split at h
  · obtain ⟨o, ho, h⟩ := Option.map_eq_some_iff.1 h
    obtain ⟨x, rfl, h⟩ := Option.map_eq_some_iff.1 h
    cases h
    exact Nat.add_le_add_left (viewTextRound_takes ho) _
  · cases h

theorem boolText_takes {text : List UInt8} {b : Bool} (h : boolText text = some (some (k, b))) :
    4 ≤ k := by
  unfold boolText at h
  split at h
  · cases h; exact Nat.le_refl 4
  · split at h
    · cases h; exact Nat.le_succ 4
    · cases h

theorem takes_literals (mem : Memory) (lits : List AnyLiteral) :
    Takes (AnyLiteral.minSize lits) (literal mem lits).run :=
  (literal_reads lits).takes fun _ _ _ h => literalText_takes h

theorem Intrinsic.takes_run (mem : Memory) : {g : Bool} → {V : ValueType} → (i : Intrinsic g V) →
    Takes i.takes (i.parser mem).run
  | _, _, pure value => takes_pure value
  | _, _, charconv fc =>
    (charconv_reads fc).takes fun _ _ _ h => (fc.read_le (Option.some.inj h)).1
  | _, _, literal lits => takes_literals mem lits
  | _, _, literalMakes T hT lits => (literalMakes_reads T hT lits).takes fun _ _ _ h => literalText_takes h
  | _, _, literalConstant v lits => (literalConstant_reads v lits).takes fun _ _ _ h => literalText_takes h
  | _, _, matchChs chars => (zeroOrMoreChars_reads chars).takes fun _ _ _ _ => Nat.zero_le _
  | _, _, countCh chars => (countChars_reads chars).takes fun _ _ _ _ => Nat.zero_le _
  | _, _, whitespace => takes_whitespace mem
  | _, _, separator sep =>
    (takes_match (takes_cons (takes_whitespace mem) (takes_cons (takes_literals mem sep)
      (takes_cons (takes_whitespace mem) takes_nil)))).mono (by simp [takes])
  | _, _, parseBool => boolParser_reads.takes fun _ _ _ h => boolText_takes h
  | _, _, parseLine => lineParser_reads.takes fun _ _ _ _ => Nat.zero_le _
  | _, _, viewParser begin_ end_ escape =>
    (viewParser_reads begin_ end_ escape).takes fun _ _ _ h => viewText_takes h
  | _, _, testPrefix _ h => (testPrefix_reads h).takes fun _ _ _ _ => Nat.zero_le _
  | _, _, requirePrefix _ h => (requirePrefix_reads h).takes fun _ _ _ _ => Nat.zero_le _

theorem Takes.toFallible {p : Parser g V} (h : Takes n p.run) : Takes n p.toFallible.run := by
  intro st st' v hv hr
  rw [run_toFallible] at hr
  obtain ⟨o, ho, hr⟩ := Option.bind_eq_some_iff.1 hr
  rcases o with _ | x
  · cases hr
  · rw [settle, Option.some.injEq] at hr
    split at hr
    · obtain rfl : x = (st', v) := Option.some.inj hr
      exact h st st' v hv ho
    · cases hr

/-- `join` behind a match that is always good. -/
theorem run_joinLast_good (m : Parser true empty) (p : Parser g V) :
    (joinLast m p).run = bind m.run fun _ => p.run := by
  funext st
  show Option.map _ (Option.bind _ _) = _
  rcases hm : m.parse st with _ | r
  · rw [bind_none (by simp [Parser.run, hm])]; rfl
  · rw [bind_some (Parser.run_of_parse hm)]; rfl

section
variable {p : Parser g V} {q : Parser g' W} {ps : Parsers gs Vs}

theorem takes_joinLast {m : Parser g' empty} (hm : Takes n m.run) (hp : Takes k p.run) :
    Takes (n + k) (joinLast m p).run := by
  cases g'
  · rw [run_joinLast]
    exact hm.bind fun _ => hp.toFallible
  · rw [run_joinLast_good]
    exact hm.bind fun _ => hp

theorem takes_join (hs : Takes n ps.runAll) (hp : Takes k p.run) : Takes (n + k) (join ps p).run := by
  cases ps with
  | nil =>
    intro st st' v hv hr
    obtain ⟨hs', hn⟩ := hs st st () hv rfl
    obtain ⟨hsuf, hk⟩ := hp st st' v hv hr
    exact ⟨hsuf, by omega⟩
  | cons q qs => exact takes_joinLast (takes_match hs) hp

theorem takes_lookahead (p : Parser g V) : Takes 0 (lookahead p).run := by
  intro st st' v hv hr
  obtain ⟨r, hr, -, hst, -⟩ := Parser.parse_of_run hr
  obtain ⟨x, -, hx⟩ := Option.bind_eq_some_iff.1 hr
  obtain rfl : x.setState st = r := Option.some.inj hx
  obtain rfl : st = st' := (getState_setState x st).symm.trans hst
  exact takes_pure v st st v hv rfl

theorem takes_test (p : Parser g bool) : Takes 0 (test p).run := by
  intro st st' v hv hr
  obtain ⟨r, hr, -, hst, -⟩ := Parser.parse_of_run hr
  obtain ⟨x, -, hx⟩ := Option.bind_eq_some_iff.1 hr
  obtain rfl : PureResult.mk st (x.getValue?.getD false) = r := Option.some.inj hx
  obtain rfl : st = st' := hst
  exact takes_pure v st st v hv rfl

theorem takes_peek (A : Attempt State α) : Takes 0 (peek A) := by
  intro st st' v hv hr
  obtain ⟨o, -, ho⟩ := Option.bind_eq_some_iff.1 hr
  cases ho
  exact ⟨.refl hv, Nat.le_refl _⟩

theorem takes_foldLeft (op : V → W → V) (hp : Takes n p.run) (hq : Takes 0 q.run) :
    Takes n (foldLeft p q op).run := by
  rw [foldLeft_eq]
  exact (hp.bind fun a => Takes.iterate (fun b => hq.map (op b)) a).ofAttempt

theorem takes_sequence (hp : Takes 0 p.run) (hq : Takes 0 q.run) : Takes 0 (sequence p q).run := by
  rw [sequence_eq]
  exact (Takes.sepBy hq hp []).ofAttempt

/-- Both brackets are taken. -/
theorem takes_brackets {A : Attempt State α} {X : Type} {push : X → α → X} {opening sep closing : AnyLiteral}
    (hA : Takes 0 A) (x : X) : Takes (opening.size + closing.size)
      (bind (openParser mem opening).run fun _ => bind (sepBy (separator mem [sep]).run A push x) fun y =>
        Attempt.map (fun _ => y) (closeParser mem closing).run) := by
  have hsep := (takes_separator mem sep).mono (Nat.zero_le _)
  have helems : Takes 0 (sepBy (separator mem [sep]).run A push x) := Takes.sepBy hsep hA x
  refine ((takes_openParser mem opening).bind fun _ => helems.bind fun y =>
    (takes_closeParser mem closing).map fun _ => y).mono ?_
  omega

theorem takes_entry (sep : AnyLiteral) (hp : Takes n p.run) (hq : Takes k q.run) :
    Takes (n + (sep.size + k)) (makePair mem sep p q).run := by
  have h := takes_cons hp (takes_cons (takes_joinLast (takes_match (takes_cons (takes_separator mem sep)
    takes_nil)) hq) takes_nil)
  have hrun : (makePair mem sep p q).run = _ := congrArg Parser.run (makeVariadic_eq _ _)
  rw [hrun]
  exact (h.map _).ofAttempt

end

/-! ### Expressions take what they count -/

/-- The parsers of `env` take what `m` says. -/
def OfVars.Takes (m : OfVars Γ Nat) (env : Env Γ) : Prop :=
  ∀ (T : ValueType) (x : Var Γ T), Noam.Takes (m T x) (env x).run

theorem OfVars.Takes.cons {m : OfVars Γ Nat} {env : Env Γ} (h : m.Takes env) {q : Parser false T}
    (hq : Noam.Takes n q.run) : (m.cons n).Takes (Env.cons q env)
  | _, .zero => hq
  | _, .succ x => h _ x

theorem takes_search {func : Parser false T → Parser g T}
    (h : ∀ depth, Takes n (recurseConstantWithin func depth).run) :
    Takes n (recurse func).run := by
  intro st st' v hv hr
  rw [run_recurse] at hr
  obtain ⟨depth, hdepth, -⟩ := search_eq_some_iff.1 hr
  exact h depth st st' v hv hdepth

theorem takes_within {func : Parser false T → Parser g T}
    (h : ∀ q : Parser false T, Takes 0 q.run → Takes n (func q).run) (depth : Nat) :
    Takes n (recurseConstantWithin func depth).run := by
  induction depth with
  | zero => exact fun _ _ _ _ hr => by cases hr
  | succ depth ih =>
    rw [recurseConstantWithin_succ]
    exact (h _ (ih.mono (Nat.zero_le _))).toFallible

mutual

theorem Expr.takes_eval : {Γ : List ValueType} → {g : Bool} → {V : ValueType} → (e : Expr Γ g V) →
    {m : OfVars Γ Nat} → {env : Env Γ} → m.Takes env → Takes (e.takes m) (e.eval mem env).run
  | _, _, _, .var x, _, _, h => h _ x
  | _, _, _, .intrinsic i, _, _, _ => i.takes_run mem
  | _, _, _, .map func p, _, _, h => by
    rw [Expr.eval, map_eq]
    exact ((p.takes_eval h).map func).ofAttempt
  | _, _, _, .shiftRight p1 p2, _, _, h => by
    show Takes _ (shiftRight _ _).run
    rw [shiftRight_eq]
    exact ((p1.takes_eval h).bind fun _ => p2.takes_eval h).ofAttempt
  | _, _, _, .enclose pre par post, _, _, h => by
    rw [Expr.eval, enclose_eq]
    exact ((pre.takes_eval h).bind fun _ => (par.takes_eval h).bind fun v =>
      (post.takes_eval h).map fun _ => v).ofAttempt
  | _, _, _, .match_ ps, _, _, h => takes_match (ps.takes_runAll h)
  | _, _, _, .join ps p, _, _, h => takes_join (ps.takes_runAll h) (p.takes_eval h)
  | _, _, _, .either ps, _, _, h => takes_either (ps.takes_runFirst h)
  | _, _, _, .make construct ps, _, _, h => by
    rw [Expr.eval, make_eq]
    exact ((ps.takes_runAll h).map construct).ofAttempt
  | _, _, _, .makeVariadic construct ps, _, _, h => by
    rw [Expr.eval, makeVariadic_eq]
    exact ((ps.takes_runAll h).map construct).ofAttempt
  | _, _, _, .makeWCoro construct ps, _, _, h => by
    rw [Expr.eval, makeWCoro_eq, makeVariadic_eq]
    exact ((ps.takes_runAll h).map construct).ofAttempt
  | _, _, _, .testThen p func, _, _, h => by
    rw [Expr.eval, testThen_eq]
    exact ((((p.takes_eval h).mono (Nat.zero_le _)).map _).orElse (takes_pure _)).ofAttempt
  -- these go on from the state they started from
  | _, _, _, .test p, _, _, _ => takes_test _
  | _, _, _, .testLookahead p, _, _, _ => takes_test _
  | _, _, _, .lookahead p, _, _, _ => takes_lookahead _
  | _, _, _, .tryParse p, _, _, h => by
    rw [Expr.eval, tryParse_eq]
    exact ((((p.takes_eval h).mono (Nat.zero_le _)).map _).orElse (takes_pure _)).ofAttempt
  | _, _, _, .tryLookahead p, _, _, _ => by
    rw [Expr.eval, tryLookahead_eq]
    exact (Takes.map (takes_peek _) _).ofAttempt
  | _, _, _, .foldLeft initial rest op, _, _, h =>
    takes_foldLeft op (initial.takes_eval h) ((rest.takes_eval h).mono (Nat.zero_le _))
  | _, _, _, .sequenceSep sep elem, _, _, h =>
    takes_sequence ((elem.takes_eval h).mono (Nat.zero_le _))
      ((takes_separator mem sep).mono (Nat.zero_le _))
  | _, _, _, .sequenceEnclosed opening sep closing elem, _, _, h => by
    rw [Expr.eval, sequenceEnclosed_eq]
    exact (takes_brackets ((elem.takes_eval h).mono (Nat.zero_le _)) []).ofAttempt
  | _, _, _, .sequence elem sep, _, _, h =>
    takes_sequence ((elem.takes_eval h).mono (Nat.zero_le _)) ((sep.takes_eval h).mono (Nat.zero_le _))
  | _, _, _, @Expr.parseMap _ _ _ _ _ M _ opening elemSep keyValueSep closing key val, _, _, h => by
    rw [Expr.eval, parseMap_eq]
    exact (takes_brackets ((takes_entry keyValueSep (key.takes_eval h) (val.takes_eval h)).mono
      (Nat.zero_le _)) _).ofAttempt
  | _, _, _, .recurse body, _, _, h =>
    takes_search (takes_within fun _ hq => body.takes_eval (h.cons hq))
  | _, _, _, .recurseConstant body, m, env, h => by
    rw [Expr.eval, ← recurse_eq]
    exact takes_search (takes_within fun _ hq => body.takes_eval (h.cons hq))

theorem Exprs.takes_runAll : {Γ : List ValueType} → {gs : List Bool} → {Vs : List ValueType} →
    (es : Exprs Γ gs Vs) → {m : OfVars Γ Nat} → {env : Env Γ} → m.Takes env →
    Takes (es.takes m) (es.eval mem env).runAll
  | _, _, _, .nil, _, _, _ => takes_nil
  | _, _, _, .cons p ps, _, _, h => takes_cons (p.takes_eval h) (ps.takes_runAll h)

theorem Choices.takes_runFirst : {Γ : List ValueType} → {W : ValueType} → {gs : List Bool} →
    (es : Choices Γ W gs) → {m : OfVars Γ Nat} → {env : Env Γ} → m.Takes env →
    Takes (es.takes m) (es.eval mem env).runFirst
  | _, _, _, .nil, _, _, _ => fun _ _ _ _ hr => by cases hr
  | _, _, _, .cons p conv .nil, _, _, h => by
    exact takes_alternative conv (p.takes_eval h) fun _ _ _ _ hr => by cases hr
  | _, _, _, .cons p conv (.cons p' conv' ps), _, _, h =>
    takes_alternative conv ((p.takes_eval h).mono (min_le_left _ _))
      (((Choices.cons p' conv' ps).takes_runFirst h).mono (min_le_right _ _))

end

end Noam
