import Noam.Consumption
import Noam.Continuity
import Noam.Json

/-!
# A check that parsing ends

`e.ends` checks of an expression that parsing ends: a recursive reference is only used after a character
was taken since its `recurse`, every round of a repetition takes a character, and a `view_parser` has an
escape literal.
-/

namespace Noam
open GetResult ValueType Loop Attempt

variable {U V W T : ValueType} {g g' : Bool} {gs : List Bool} {Vs Γ : List ValueType} {mem : Memory}
variable {st t : State} {n k : Nat} {α : Type}

/-! ### The check -/

/-- The intrinsic parsers return on every input, `view_parser` when its escape literal is not empty. -/
def Intrinsic.ends : {g : Bool} → {V : ValueType} → Intrinsic g V → Bool
  | _, _, viewParser _ _ escape => 0 < escape.size
  | _, _, _ => true

/-- The references that may be used when at least `n` more characters have been taken. -/
def OfVars.after (n : Nat) (c : OfVars Γ Bool) : OfVars Γ Bool := fun T x => c T x || decide (0 < n)

mutual

/-- Parsing ends where the references end that may be used: the ones that `c` names, and all of them
once a character is taken. -/
def Expr.ends : {Γ : List ValueType} → {g : Bool} → {V : ValueType} → Expr Γ g V → OfVars Γ Nat →
    OfVars Γ Bool → Bool
  | _, _, _, .var x, _, c => c _ x
  | _, _, _, .intrinsic i, _, _ => i.ends
  | _, _, _, .map _ p, m, c => p.ends m c
  | _, _, _, .shiftRight p1 p2, m, c => p1.ends m c && p2.ends m (c.after (p1.takes m))
  | _, _, _, .enclose pre par post, m, c =>
    pre.ends m c && par.ends m (c.after (pre.takes m)) &&
      post.ends m (c.after (pre.takes m + par.takes m))
  | _, _, _, .match_ ps, m, c => ps.ends m c
  | _, _, _, .join ps p, m, c => ps.ends m c && p.ends m (c.after (ps.takes m))
  | _, _, _, .either ps, m, c => ps.ends m c
  | _, _, _, .make _ ps, m, c => ps.ends m c
  | _, _, _, .makeVariadic _ ps, m, c => ps.ends m c
  | _, _, _, .makeWCoro _ ps, m, c => ps.ends m c
  | _, _, _, .testThen p _, m, c => p.ends m c
  | _, _, _, .test p, m, c => p.ends m c
  | _, _, _, .testLookahead p, m, c => p.ends m c
  | _, _, _, .lookahead p, m, c => p.ends m c
  | _, _, _, .tryParse p, m, c => p.ends m c
  | _, _, _, .tryLookahead p, m, c => p.ends m c
  | _, _, _, .foldLeft initial rest _, m, c =>
    initial.ends m c && rest.ends m (c.after (initial.takes m)) && decide (0 < rest.takes m)
  | _, _, _, .sequenceSep sep elem, m, c => elem.ends m c && decide (0 < sep.size + elem.takes m)
  | _, _, _, .sequenceEnclosed opening sep _ elem, m, c =>
    elem.ends m (c.after opening.size) && decide (0 < sep.size + elem.takes m)
  | _, _, _, .sequence elem sep, m, c =>
    elem.ends m c && sep.ends m (c.after (elem.takes m)) && decide (0 < sep.takes m + elem.takes m)
  | _, _, _, @Expr.parseMap _ _ _ _ _ _ _ opening elemSep keyValueSep _ key val, m, c =>
    key.ends m (c.after opening.size) &&
      val.ends m (c.after (opening.size + key.takes m + keyValueSep.size)) &&
      decide (0 < elemSep.size + (key.takes m + (keyValueSep.size + val.takes m)))
  | _, _, _, .recurse body, m, c => body.ends (m.cons (body.takes (m.cons 0))) (c.cons false)
  | _, _, _, .recurseConstant body, m, c => body.ends (m.cons (body.takes (m.cons 0))) (c.cons false)

def Exprs.ends : {Γ : List ValueType} → {gs : List Bool} → {Vs : List ValueType} → Exprs Γ gs Vs →
    OfVars Γ Nat → OfVars Γ Bool → Bool
  | _, _, _, .nil, _, _ => true
  | _, _, _, .cons p ps, m, c => p.ends m c && ps.ends m (c.after (p.takes m))

def Choices.ends : {Γ : List ValueType} → {W : ValueType} → {gs : List Bool} → Choices Γ W gs →
    OfVars Γ Nat → OfVars Γ Bool → Bool
  | _, _, _, .nil, _, _ => true
  | _, _, _, .cons p _ ps, m, c => p.ends m c && ps.ends m c

end

/-! ### Totality behind a number of characters -/

/-- The suffixes of `st` behind at least `n` characters. -/
def State.After (st : State) (n : Nat) (t : State) : Prop := t.Suffix st ∧ st._begin + n ≤ t._begin

theorem State.After.mono (h : st.After n t) (hk : k ≤ n) : st.After k t :=
  ⟨h.1, by have := h.2; omega⟩

theorem State.after_self (hv : st.Valid) : st.After 0 st := ⟨.refl hv, Nat.le_refl _⟩

theorem Takes.keeps_after {A : Attempt State α} (h : Takes k A) (st : State) (n : Nat) :
    Keeps (st.After n) (st.After (n + k)) A := by
  intro t t' a ht hr
  obtain ⟨hs, hle⟩ := h t t' a ht.1.valid hr
  have := ht.2
  exact ⟨ht.1.trans hs, by omega⟩

theorem Takes.keeps_self {A : Attempt State α} (h : Takes k A) (hv : st.Valid) :
    Keeps (· = st) (st.After k) A := by
  rintro _ t a rfl hr
  exact h _ t a hv hr

theorem total_self {A : Attempt State α} (h : (A st).isSome) : Total (· = st) A := by
  rintro _ rfl
  exact h

theorem total_after {A : Attempt State α} (h : Total State.Valid A) (st : State) (n : Nat) :
    Total (st.After n) A := fun t ht => h t ht.1.valid

section
variable {A B : Attempt State α} {β X : Type} {sep : Attempt State β} {push : X → α → X}

/-- A repetition ends when every round takes a character. -/
theorem total_iterate_after {k : α → Attempt State α} {i : Nat} (hk : ∀ a, Takes i (k a)) (hi : 0 < i)
    (ht : ∀ a, Total (st.After n) (k a)) (a : α) : Total (st.After n) (iterate k a) := by
  refine Total.iterate State.length ht (fun a t t' a' h hr => ?_) a
  have hle := (hk a).length_le h.1.valid hr
  exact ⟨((hk a).keeps_after st n t t' a' h hr).mono (Nat.le_add_right n i), by omega⟩

/-- Separator and element may share what a round takes. -/
theorem total_sepBy_after (hA : Takes k A) {i : Nat} (hsep : Takes i sep) (hi : 0 < i + k)
    (htA : Total (st.After n) A) (hts : Total (st.After (n + k)) sep) (x : X) :
    Total (st.After n) (sepBy sep A push x) := by
  have hround : Takes (i + k) (bind sep fun _ => A) := hsep.bind fun _ => hA
  have hrt : Total (st.After (n + k)) (bind sep fun _ => A) :=
    hts.bind (hsep.keeps_after st (n + k)) fun _ t ht => htA t (ht.mono (by omega))
  exact (htA.bind (hA.keeps_after st n) fun a =>
    total_iterate_after (fun y => hround.map (push y)) hi (fun y => hrt.map (push y)) (push x a)).orElse
      (total_pure x)

theorem total_brackets {opening sep closing : AnyLiteral} (hv : st.Valid) (hA : Takes k A)
    (hi : 0 < sep.size + k) (ht : Total (st.After opening.size) A) (x : X) :
    Total (· = st) (bind (openParser mem opening).run fun _ =>
      bind (sepBy (separator mem [sep]).run A push x) fun y =>
        Attempt.map (fun _ => y) (closeParser mem closing).run) := by
  have hopen := total_self (total_openParser mem opening st hv)
  have hsep := (takes_separator mem sep).mono (Nat.zero_le _)
  have helems : Takes 0 (sepBy (separator mem [sep]).run A push x) :=
    Takes.sepBy hsep (hA.mono (Nat.zero_le _)) x
  have htelems : Total (st.After opening.size) (sepBy (separator mem [sep]).run A push x) :=
    total_sepBy_after hA (takes_separator mem sep) hi ht
      (total_after (total_separator mem sep) st _) x
  exact hopen.bind ((takes_openParser mem opening).keeps_self hv) fun _ =>
    htelems.bind (helems.keeps_after st _) fun y =>
      (total_after (total_closeParser mem closing) st _).map _

end

section
variable {D D' : State → Prop} {p : Parser g V} {q : Parser g' W} {ps : Parsers gs Vs}

theorem total_peek {A : Attempt State α} (h : Total D A) : Total D (peek A) := by
  intro st hst
  obtain ⟨o, ho⟩ := Option.isSome_iff_exists.1 (h st hst)
  rw [peek, ho]; rfl

theorem total_toFallible (h : Total D p.run) : Total D p.toFallible.run := by
  intro st hst
  rw [isSome_run_toFallible]
  exact h st hst

theorem total_joinLast {m : Parser g' empty} (hm : Total D m.run) (hk : Keeps D D' m.run)
    (hp : Total D' p.run) : Total D (joinLast m p).run := by
  cases g'
  · rw [run_joinLast]
    exact hm.bind hk fun _ => total_toFallible hp
  · rw [run_joinLast_good]
    exact hm.bind hk fun _ => hp

theorem total_join (hs : Total D ps.runAll) (hk : Keeps D D' ps.runAll) (hp : Total D' p.run) :
    Total D (join ps p).run := by
  cases ps with
  | nil => exact fun st hst => hp st (hk st st () hst rfl)
  | cons q qs =>
    refine total_joinLast (total_match hs) (fun st st' v hst hr => ?_) hp
    rw [match_eq] at hr
    exact hk.map _ st st' v hst (eq_of_run_ofAttempt hr)

theorem total_lookahead (h : Total D p.run) : Total D (lookahead p).run := by
  intro st hst
  have hp := h st hst
  rw [Parser.run, Option.isSome_map] at hp ⊢
  obtain ⟨r, hr⟩ := Option.isSome_iff_exists.1 hp
  show ((p.parse st).bind _).isSome
  rw [hr]; rfl

theorem total_test {p : Parser g bool} (h : Total D p.run) : Total D (test p).run := by
  intro st hst
  have hp := h st hst
  rw [Parser.run, Option.isSome_map] at hp ⊢
  obtain ⟨r, hr⟩ := Option.isSome_iff_exists.1 hp
  show ((p.parse st).bind _).isSome
  rw [hr]; rfl

theorem total_entry {sep : AnyLiteral} {i : Nat} (hp : Takes i p.run) (htp : Total (st.After n) p.run)
    (htq : Total (st.After (n + i + sep.size)) q.run) :
    Total (st.After n) (makePair mem sep p q).run := by
  have hm := takes_match (takes_cons (takes_separator mem sep) takes_nil)
  have htm : Total (st.After (n + i)) (match_ (.cons (separator mem [sep]) .nil)).run :=
    total_after (total_match (total_cons (total_separator mem sep) (takes_separator mem sep).keeps
      (total_pure ()))) st _
  have hj : Total (st.After (n + i))
      (joinLast (match_ (.cons (separator mem [sep]) .nil)) q).run :=
    total_joinLast htm (hm.keeps_after st (n + i)) htq
  have hrun : (makePair mem sep p q).run = _ := congrArg Parser.run (makeVariadic_eq _ _)
  have hend : Total (fun _ => True) (Attempt.pure () : Attempt State Unit) := total_pure ()
  rw [hrun]
  refine total_ofAttempt (Total.map ?_ _) (by simp)
  exact total_cons htp (hp.keeps_after st n)
    (hj.bind (fun _ _ _ _ _ => trivial) fun _ => hend.map _)

end

/-! ### Expressions that pass the check -/

theorem Intrinsic.total_run (mem : Memory) : {g : Bool} → {V : ValueType} → (i : Intrinsic g V) →
    i.ends = true → Total State.Valid (i.parser mem).run
  | _, _, pure _, _ => fun _ _ => rfl
  | _, _, charconv fc, _ => total_charconv mem fc
  | _, _, literal lits, _ => total_literal mem lits
  | _, _, literalMakes T hT lits, _ => (literalMakes_reads T hT lits).total (fun _ => rfl) (by simp)
  | _, _, literalConstant v lits, _ => total_literalConstant mem v lits
  | _, _, matchChs chars, _ => (zeroOrMoreChars_reads chars).total (fun _ => rfl) fun _ _ h => by cases h
  | _, _, countCh chars, _ => (countChars_reads chars).total (fun _ => rfl) fun _ _ h => by cases h
  | _, _, whitespace, _ => total_whitespace mem
  | _, _, separator sep, _ =>
    total_match (total_cons (total_whitespace mem) (takes_whitespace mem).keeps
      (total_cons (total_literal mem sep) (takes_literals mem sep).keeps
        (total_cons (total_whitespace mem) (takes_whitespace mem).keeps (total_pure ()))))
  | _, _, parseBool, _ => total_boolParser mem
  | _, _, parseLine, _ => by
    refine lineParser_reads.total (fun text => ?_) fun _ text h => ?_
    · unfold lineText
      simp only
      split <;> rfl
    · unfold lineText at h
      simp only at h
      split at h <;> cases h
  | _, _, viewParser begin_ end_ escape, h =>
    (viewParser_reads begin_ end_ escape).total (isSome_viewText (of_decide_eq_true h)) (by simp)
  | _, _, testPrefix _ hp, _ => by
    refine (testPrefix_reads hp).total (fun text => ?_) fun _ text h => ?_
    · unfold testPrefixText
      split <;> rfl
    · unfold testPrefixText at h
      split at h <;> cases h
  | _, _, requirePrefix _ hp, _ => by
    refine (requirePrefix_reads hp).total (fun text => ?_) (by simp)
    unfold requirePrefixText
    split <;> rfl

/-- The parsers of `env` take what `m` says; they return on strictly shorter suffixes of `st`, and on
`st` itself when `c` says so. -/
structure Env.Ends (m : OfVars Γ Nat) (c : OfVars Γ Bool) (env : Env Γ) (st : State) : Prop where
  takes : m.Takes env
  below : ∀ (T : ValueType) (x : Var Γ T), Total st.Below (env x).run
  callable : ∀ (T : ValueType) (x : Var Γ T), c T x = true → ((env x).run st).isSome

theorem State.Suffix.eq_or_below (h : t.Suffix st) : t = st ∨ st.Below t := by
  rcases Nat.eq_or_lt_of_le h.begin_le with heq | hlt
  · left
    have hend := h.end_eq
    cases st; cases t
    simp_all
  · exact .inr ⟨h, hlt⟩

namespace Env.Ends
variable {m : OfVars Γ Nat} {c : OfVars Γ Bool} {env : Env Γ}

theorem after (h : Env.Ends m c env st) (ht : st.After n t) : Env.Ends m (c.after n) env t where
  takes := h.takes
  below T x t' ht' := h.below T x t' ⟨ht.1.trans ht'.1, Nat.lt_of_le_of_lt ht.1.begin_le ht'.2⟩
  callable T x hx := by
    rcases ht.1.eq_or_below with rfl | hb
    · have hn : ¬ 0 < n := by have := ht.2; omega
      rw [OfVars.after, decide_eq_false hn, Bool.or_false] at hx
      exact h.callable T x hx
    · exact h.below T x t hb

theorem suffix (h : Env.Ends m c env st) (ht : t.Suffix st) : Env.Ends m c env t where
  takes := h.takes
  below T x t' ht' := h.below T x t' ⟨ht.trans ht'.1, Nat.lt_of_le_of_lt ht.begin_le ht'.2⟩
  callable T x hx := by
    rcases ht.eq_or_below with rfl | hb
    · exact h.callable T x hx
    · exact h.below T x t hb

/-- One more reference, which may not be used at once. -/
theorem cons (h : Env.Ends m c env st) {q : Parser false T} (hq : Noam.Takes n q.run)
    (ht : Total st.Below q.run) : Env.Ends (m.cons n) (c.cons false) (Env.cons q env) st where
  takes := h.takes.cons hq
  below
    | _, .zero => ht
    | _, .succ x => h.below _ x
  callable
    | _, .zero => fun hx => by cases hx
    | _, .succ x => h.callable _ x

end Env.Ends

/-- Nested calls that are one deeper than the input is long are enough. -/
theorem isSome_recurse {func : Parser false T → Parser g T}
    (htakes : ∀ depth, Takes n (recurseConstantWithin func depth).run)
    (h : ∀ (t : State) (q : Parser false T), t.Suffix st → Takes n q.run → Total t.Below q.run →
      ((func q).run t).isSome) (hv : st.Valid) : ((recurse func).run st).isSome := by
  have hwithin : ∀ depth t, t.Suffix st → t.length < depth →
      ((recurseConstantWithin func depth).run t).isSome := by
    intro depth
    induction depth with
    | zero => intro t _ hlt; omega
    | succ depth ih =>
      intro t ht hlt
      rw [recurseConstantWithin_succ, isSome_run_toFallible]
      refine h t _ ht (htakes depth) fun t' ht' => ih t' (ht.trans ht'.1) ?_
      have := ht'.length_lt
      omega
  rw [run_recurse]
  exact isSome_search (hwithin (st.length + 1) st (.refl hv) (Nat.lt_succ_self _))

mutual

theorem Expr.isSome_eval : {Γ : List ValueType} → {g : Bool} → {V : ValueType} → (e : Expr Γ g V) →
    {m : OfVars Γ Nat} → {c : OfVars Γ Bool} → {env : Env Γ} → {st : State} → e.ends m c = true →
    Env.Ends m c env st → st.Valid → ((e.eval mem env).run st).isSome
  | _, _, _, .var x, _, _, _, _, he, h, _ => h.callable _ x he
  | _, _, _, .intrinsic i, _, _, _, st, he, _, hv => i.total_run mem he st hv
  | _, _, _, .map func p, _, _, _, _, he, h, hv => by
    rw [Expr.eval, map_eq]
    refine total_ofAttempt (Total.map (total_self (p.isSome_eval he h hv)) func) (fun hg => ?_) _ rfl
    subst hg
    exact (Parser.neverFails _).map func
  | _, _, _, .shiftRight p1 p2, _, _, _, _, he, h, hv => by
    simp only [Expr.ends, Bool.and_eq_true] at he
    show ((shiftRight _ _).run _).isSome
    rw [shiftRight_eq]
    exact total_ofAttempt (Total.bind (total_self (p1.isSome_eval he.1 h hv))
      ((p1.takes_eval h.takes).keeps_self hv)
      fun _ t ht => p2.isSome_eval he.2 (h.after ht) ht.1.valid) (by simp) _ rfl
  | _, _, _, .enclose pre par post, _, _, _, st, he, h, hv => by
    simp only [Expr.ends, Bool.and_eq_true] at he
    obtain ⟨⟨hpre, hpar⟩, hpost⟩ := he
    rw [Expr.eval, enclose_eq]
    exact total_ofAttempt (Total.bind (total_self (pre.isSome_eval hpre h hv))
      ((pre.takes_eval h.takes).keeps_self hv) fun _ =>
        Total.bind (fun t ht => par.isSome_eval hpar (h.after ht) ht.1.valid)
          ((par.takes_eval h.takes).keeps_after st _) fun _ =>
            Total.map (fun t ht => post.isSome_eval hpost (h.after ht) ht.1.valid) _) (by simp) _ rfl
  | _, _, _, .match_ ps, _, _, _, _, he, h, hv => total_match (total_self (ps.isSome_runAll he h hv)) _ rfl
  | _, _, _, .join ps p, _, _, _, _, he, h, hv => by
    simp only [Expr.ends, Bool.and_eq_true] at he
    exact total_join (total_self (ps.isSome_runAll he.1 h hv)) ((ps.takes_runAll h.takes).keeps_self hv)
      (fun t ht => p.isSome_eval he.2 (h.after ht) ht.1.valid) _ rfl
  | _, _, _, .either ps, _, _, _, _, he, h, hv =>
    total_either (total_self (ps.isSome_runFirst he h hv)) _ rfl
  | _, _, _, .make construct ps, _, _, _, _, he, h, hv => by
    rw [Expr.eval, make_eq]
    exact total_ofAttempt (Total.map (total_self (ps.isSome_runAll he h hv)) construct)
      (neverFails_make construct _) _ rfl
  | _, _, _, .makeVariadic construct ps, _, _, _, _, he, h, hv => by
    rw [Expr.eval, makeVariadic_eq]
    exact total_ofAttempt (Total.map (total_self (ps.isSome_runAll he h hv)) construct) (by simp) _ rfl
  | _, _, _, .makeWCoro construct ps, _, _, _, _, he, h, hv => by
    rw [Expr.eval, makeWCoro_eq, makeVariadic_eq]
    exact total_ofAttempt (Total.map (total_self (ps.isSome_runAll he h hv)) construct) (by simp) _ rfl
  | _, _, _, .testThen p func, _, _, _, _, he, h, hv => by
    rw [Expr.eval, testThen_eq]
    exact total_ofAttempt (Total.orElse (Total.map (total_self (p.isSome_eval he h hv)) _) (total_pure _))
      (fun _ => .orElse_right (neverFails_pure _)) _ rfl
  | _, _, _, .test p, _, _, _, _, he, h, hv => total_test (total_self (p.isSome_eval he h hv)) _ rfl
  | _, _, _, .testLookahead p, _, _, _, _, he, h, hv =>
    total_test (total_self (p.isSome_eval he h hv)) _ rfl
  | _, _, _, .lookahead p, _, _, _, _, he, h, hv =>
    total_lookahead (total_self (p.isSome_eval he h hv)) _ rfl
  | _, _, _, .tryParse p, _, _, _, _, he, h, hv => by
    rw [Expr.eval, tryParse_eq]
    exact total_ofAttempt (Total.orElse (Total.map (total_self (p.isSome_eval he h hv)) _) (total_pure _))
      (fun _ => .orElse_right (neverFails_pure _)) _ rfl
  | _, _, _, .tryLookahead p, _, _, _, _, he, h, hv => by
    rw [Expr.eval, tryLookahead_eq]
    exact total_ofAttempt (Total.map (total_peek (total_self (p.isSome_eval he h hv))) _)
      (fun _ => (neverFails_peek _).map _) _ rfl
  | _, _, _, .foldLeft initial rest op, _, _, _, _, he, h, hv => by
    simp only [Expr.ends, Bool.and_eq_true, decide_eq_true_eq] at he
    obtain ⟨⟨hinitial, hrest⟩, hpos⟩ := he
    -- every round takes a character, so that the rounds come to an end
    rw [Expr.eval, foldLeft_eq]
    exact total_ofAttempt (Total.bind (total_self (initial.isSome_eval hinitial h hv))
      ((initial.takes_eval h.takes).keeps_self hv) fun a =>
        total_iterate_after (fun b => (rest.takes_eval h.takes).map (op b)) hpos
          (fun b => Total.map (fun t ht => rest.isSome_eval hrest (h.after ht) ht.1.valid) (op b)) a)
      (by simp) _ rfl
  | _, _, _, .sequenceSep sep elem, _, _, _, st, he, h, hv => by
    simp only [Expr.ends, Bool.and_eq_true, decide_eq_true_eq] at he
    rw [Expr.eval, sequenceSep_eq, sequence_eq]
    exact total_ofAttempt (total_sepBy_after (elem.takes_eval h.takes) (takes_separator mem sep) he.2
      (fun t ht => elem.isSome_eval he.1 (h.suffix ht.1) ht.1.valid)
      (total_after (total_separator mem sep) st _) []) (fun _ => neverFails_sepBy _ _ _ _) _
      (State.after_self hv)
  | _, _, _, .sequenceEnclosed opening sep closing elem, _, _, _, st, he, h, hv => by
    simp only [Expr.ends, Bool.and_eq_true, decide_eq_true_eq] at he
    rw [Expr.eval, sequenceEnclosed_eq]
    exact total_ofAttempt (D := (· = st)) (total_brackets hv (elem.takes_eval h.takes) he.2
      (fun t ht => elem.isSome_eval he.1 (h.after ht) ht.1.valid) []) (by simp) _ rfl
  | _, _, _, .sequence elem sep, _, _, _, st, he, h, hv => by
    simp only [Expr.ends, Bool.and_eq_true, decide_eq_true_eq] at he
    obtain ⟨⟨helem, hsep⟩, hpos⟩ := he
    rw [Expr.eval, sequence_eq]
    refine total_ofAttempt (total_sepBy_after (elem.takes_eval h.takes) (sep.takes_eval h.takes) hpos
      (fun t ht => elem.isSome_eval helem (h.suffix ht.1) ht.1.valid) (fun t ht => ?_) [])
      (fun _ => neverFails_sepBy _ _ _ _) _ (State.after_self hv)
    exact sep.isSome_eval hsep (h.after (ht.mono (Nat.le_add_left _ _))) ht.1.valid
  | _, _, _, @Expr.parseMap _ _ _ _ _ M _ opening elemSep keyValueSep closing key val, _, _, _, _, he, h,
      hv => by
    simp only [Expr.ends, Bool.and_eq_true, decide_eq_true_eq] at he
    obtain ⟨⟨hkey, hval⟩, hpos⟩ := he
    rw [Expr.eval, parseMap_eq]
    exact total_ofAttempt (total_brackets hv
      (takes_entry keyValueSep (key.takes_eval h.takes) (val.takes_eval h.takes)) hpos
      (total_entry (key.takes_eval h.takes) (fun t ht => key.isSome_eval hkey (h.after ht) ht.1.valid)
        fun t ht => val.isSome_eval hval (h.after ht) ht.1.valid) _) (by simp) _ rfl
  -- the body uses its reference on shorter inputs only, where it returns by induction
  | _, _, _, .recurse body, _, _, _, _, he, h, hv =>
    isSome_recurse (takes_within fun _ hq => body.takes_eval (h.takes.cons hq))
      (fun _ _ ht hq htq => body.isSome_eval he ((h.suffix ht).cons hq htq) ht.valid) hv
  | _, _, _, .recurseConstant body, _, _, _, _, he, h, hv => by
    rw [Expr.eval, ← recurse_eq]
    exact isSome_recurse (takes_within fun _ hq => body.takes_eval (h.takes.cons hq))
      (fun _ _ ht hq htq => body.isSome_eval he ((h.suffix ht).cons hq htq) ht.valid) hv

theorem Exprs.isSome_runAll : {Γ : List ValueType} → {gs : List Bool} → {Vs : List ValueType} →
    (es : Exprs Γ gs Vs) → {m : OfVars Γ Nat} → {c : OfVars Γ Bool} → {env : Env Γ} → {st : State} →
    es.ends m c = true → Env.Ends m c env st → st.Valid → ((es.eval mem env).runAll st).isSome
  | _, _, _, .nil, _, _, _, _, _, _, _ => rfl
  | _, _, _, .cons p ps, _, _, _, _, he, h, hv => by
    simp only [Exprs.ends, Bool.and_eq_true] at he
    exact total_cons (total_self (p.isSome_eval he.1 h hv)) ((p.takes_eval h.takes).keeps_self hv)
      (fun t ht => ps.isSome_runAll he.2 (h.after ht) ht.1.valid) _ rfl

theorem Choices.isSome_runFirst : {Γ : List ValueType} → {W : ValueType} → {gs : List Bool} →
    (es : Choices Γ W gs) → {m : OfVars Γ Nat} → {c : OfVars Γ Bool} → {env : Env Γ} → {st : State} →
    es.ends m c = true → Env.Ends m c env st → st.Valid → ((es.eval mem env).runFirst st).isSome
  | _, _, _, .nil, _, _, _, _, _, _, _ => rfl
  | _, _, _, .cons p conv ps, _, _, _, _, he, h, hv => by
    simp only [Choices.ends, Bool.and_eq_true] at he
    exact total_alternative conv (total_self (p.isSome_eval he.1 h hv))
      (total_self (ps.isSome_runFirst he.2 h hv)) _ rfl

end

theorem Env.ends_nil (st : State) : Env.Ends OfVars.nil OfVars.nil Env.nil st :=
  ⟨fun _ x => (nomatch x), fun _ x => (nomatch x), fun _ x => (nomatch x)⟩

theorem Expr.isSome_parse (mem : Memory) (e : Expr [] g V) (he : e.ends .nil .nil = true)
    (hst : st.Valid) : ((e.eval mem Env.nil).parse st).isSome := by
  have hrun : ((e.eval mem Env.nil).run st).isSome := e.isSome_eval he (Env.ends_nil st) hst
  rwa [Parser.run, Option.isSome_map] at hrun

/-- An expression that passes the check returns on every valid state, and a success takes at least the
characters that are counted. -/
theorem eval_ends (mem : Memory) (e : Expr [] g V) (he : e.ends .nil .nil = true) (hst : st.Valid) :
    ((e.eval mem Env.nil).parse st).isSome ∧ ∀ st' v,
      (e.eval mem Env.nil).run st = some (some (st', v)) →
        st'.Suffix st ∧ st._begin + e.takes .nil ≤ st'._begin :=
  ⟨e.isSome_parse mem he hst, fun st' v hr => e.takes_eval (Env.ends_nil st).takes st st' v hst hr⟩

/-- The body of a recursion that passes the check has no fixpoint but the recursion, among all parsers
and whatever they take. -/
theorem recurse_fixpoint_unique (mem : Memory) (body : Expr [T] g T)
    (he : (Expr.recurse body).ends .nil .nil = true) {q : Parser false T}
    (hq : q = (body.eval mem (Env.cons q Env.nil)).toFallible) (hst : st.Valid) :
    q.parse st = ((Expr.recurse body).eval mem Env.nil).parse st := by
  obtain ⟨r, hr⟩ := Option.isSome_iff_exists.1 ((Expr.recurse body).isSome_parse mem he hst)
  rw [hr]
  exact (body.continuousIn mem Env.nil).recurse_le hq st r hr

/-- Booleans in any number of parentheses. -/
def parenthesized : Expr [bool] false bool :=
  .either (.cons (.enclose (.intrinsic (.literal [.charLiteral (ch '(')])) (.var .zero)
    (.intrinsic (.literal [.charLiteral (ch ')')]))) .same (.cons (.intrinsic .parseBool) .same .nil))

/-- `((true))` takes two parentheses and a boolean, and no less than the two characters that are counted. -/
theorem eval_ends_parenthesized :
    let mem := Memory.ofText [ch '(', ch '(', ch 't', ch 'r', ch 'u', ch 'e', ch ')', ch ')']
    let e := Expr.recurse parenthesized
    e.takes .nil = 2 ∧ ∃ st', (e.eval mem Env.nil).run (State.ofLength 8) = some (some (st', true)) ∧
      st'.Suffix (State.ofLength 8) ∧ 1 + 2 ≤ st'._begin := by
  intro mem e
  have hrun : (e.eval mem Env.nil).run (State.ofLength 8) = some (some (⟨9, 9⟩, true)) := by
    show ((recurse (parenthesized.bodyOf mem Env.nil)).run _) = _
    rw [recurse_eq]
    have hlimit := (parenthesized.continuousIn mem Env.nil).limit_within (State.ofLength 8)
    exact congrArg (Option.map outcome) (hlimit.bound 3 (Result.of ⟨9, 9⟩ true) rfl)
  exact ⟨rfl, _, hrun, (eval_ends mem e rfl (by decide)).2 _ _ hrun⟩

/-! ### Parentheses counted by hand -/

def betweenParentheses (mem : Memory) (A : Attempt State bool) : Attempt State bool :=
  bind (Noam.literal mem [.charLiteral (ch '(')]).run fun _ => bind A fun b =>
    Attempt.map (fun _ => b) (Noam.literal mem [.charLiteral (ch ')')]).run

/-- A boolean in `n` pairs of parentheses. -/
def inParentheses (mem : Memory) : Nat → Attempt State bool
  | 0 => (boolParser mem).run
  | n + 1 => betweenParentheses mem (inParentheses mem n)

def openParentheses (text : List UInt8) : Nat := (text.takeWhile (· = ch '(')).length

/-- `parenthesized` written by hand: as many pairs of parentheses as are opened at the start. -/
def parenthesizedByHand (mem : Memory) : Parser false bool :=
  .ofAttempt false fun st => inParentheses mem (openParentheses (st.text mem)) st

theorem kept_betweenParentheses {A : Attempt State bool} {t : State} {b : Bool}
    (h : betweenParentheses mem A st = some (some (t, b))) : kept false bool t = true := by
  obtain ⟨st₁, _, -, h⟩ := bind_eq_some h
  obtain ⟨st₂, _, -, h⟩ := bind_eq_some h
  obtain ⟨st₃, _, hclose, h⟩ := bind_eq_some h
  cases h
  have hkept : kept false empty t = true := Parser.kept_of_run hclose
  exact hkept

theorem run_ofAttempt_of_kept {A : Attempt State V}
    (h : ∀ t v, A st = some (some (t, v)) → kept false V t = true) :
    (Parser.ofAttempt false A).run st = A st := by
  rw [run_ofAttempt]
  rcases hA : A st with _ | _ | ⟨t, v⟩
  · rfl
  · rfl
  · rw [Option.bind_some, settle, if_pos (h t v hA)]

theorem run_parenthesizedByHand (mem : Memory) (st : State) :
    (parenthesizedByHand mem).run st = inParentheses mem (openParentheses (st.text mem)) st := by
  refine run_ofAttempt_of_kept fun t b h => ?_
  cases hn : openParentheses (st.text mem) with
  | zero => rw [hn] at h; exact Parser.kept_of_run h
  | succ n => rw [hn] at h; exact kept_betweenParentheses h

/-- What stands behind the first parenthesis is parsed alike, and no boolean starts with one. -/
theorem inParentheses_eq (mem : Memory) (st : State) : inParentheses mem (openParentheses (st.text mem)) st =
    orElse (betweenParentheses mem (parenthesizedByHand mem).run) (boolParser mem).run st := by
  have hopen := run_literal_char mem (ch '(') st
  by_cases hc : st.startsWithChar mem (ch '(') = true
  · obtain ⟨rest, htext⟩ := State.startsWithChar_iff.1 hc
    have hv : st.Valid := Nat.le_of_lt (State.text_ne_nil (by rw [← htext]; simp))
    have hbool : (boolParser mem).run st = some none := by
      rw [boolParser_reads.run_eq hv, ← htext]
      rfl
    have hrest : (st.removePrefix 1).text mem = rest := by rw [State.text_removePrefix, ← htext]; rfl
    have hcount : openParentheses (st.text mem) = openParentheses rest + 1 := by
      simp [openParentheses, ← htext]
    have hinner := run_parenthesizedByHand mem (st.removePrefix 1)
    rw [hrest] at hinner
    rw [if_pos hc] at hopen
    have hsame : betweenParentheses mem (inParentheses mem (openParentheses rest)) st =
        betweenParentheses mem (parenthesizedByHand mem).run st := by
      rw [betweenParentheses, bind_some hopen, betweenParentheses, bind_some hopen]
      unfold Attempt.bind
      rw [hinner]
    rw [hcount, inParentheses, hsame]
    rcases hfirst : betweenParentheses mem (parenthesizedByHand mem).run st with _ | _ | x
    · rw [orElse_none hfirst]
    · rw [orElse_fail hfirst, hbool]
    · rw [orElse_some hfirst]
  · have hcount : openParentheses (st.text mem) = 0 := by
      rcases htext : st.text mem with _ | ⟨c, rest⟩
      · rfl
      · have hne : c ≠ ch '(' := by
          rintro rfl
          exact hc (State.startsWithChar_iff.2 ⟨rest, htext.symm⟩)
        simp [openParentheses, hne]
    rw [if_neg hc] at hopen
    have hfail : betweenParentheses mem (parenthesizedByHand mem).run st = some none := bind_fail hopen
    rw [hcount, inParentheses, orElse_fail hfail]

/-- It is the body of the recursion with itself for the reference, on all states. -/
theorem parenthesizedByHand_fixpoint (mem : Memory) : parenthesizedByHand mem =
    (parenthesized.eval mem (Env.cons (parenthesizedByHand mem) Env.nil)).toFallible := by
  let q := parenthesizedByHand mem
  let e := enclose (Noam.literal mem [.charLiteral (ch '(')]) q (Noam.literal mem [.charLiteral (ch ')')])
  have he : e.run = betweenParentheses mem q.run := by
    rw [show e = .ofAttempt false (betweenParentheses mem q.run) from enclose_eq _ _ _]
    exact funext fun st => run_ofAttempt_of_kept fun _ _ => kept_betweenParentheses
  have hsame : ∀ A : Attempt State bool, Attempt.map (Conversion.same (V := bool)).apply A = A :=
    fun A => map_id A
  have hfirst : (Alternatives.cons e .same (.cons (boolParser mem) .same .nil)).runFirst =
      fun st => inParentheses mem (openParentheses (st.text mem)) st := by
    rw [Alternatives.runFirst, Alternatives.runFirst, Alternatives.runFirst, orElse_fail_right, hsame, hsame, he]
    exact funext fun st => (inParentheses_eq mem st).symm
  rw [toFallible_of_fallible]
  exact (congrArg (Parser.ofAttempt false) hfirst.symm).trans (either₂_eq e .same (boolParser mem) .same).symm

/-- The recursion parses `((true))` as the parser written by hand does. -/
theorem recurse_fixpoint_unique_parenthesized :
    let mem := Memory.ofText [ch '(', ch '(', ch 't', ch 'r', ch 'u', ch 'e', ch ')', ch ')']
    ((Expr.recurse parenthesized).eval mem Env.nil).run (State.ofLength 8) = some (some (⟨9, 9⟩, true)) := by
  intro mem
  have hunique := recurse_fixpoint_unique mem parenthesized rfl (parenthesizedByHand_fixpoint mem)
    (show (State.ofLength 8).Valid by decide)
  rw [Parser.run, ← hunique]
  rfl

/-! ### JSON -/

section
variable {N : Type} [Inhabited N]

/-- `parse_string_view` as an expression. -/
def stringViewExpr : Expr Γ false stringView :=
  .intrinsic (.viewParser (.charLiteral (ch '"')) (.charLiteral (ch '"')) (.charLiteral (ch '\\')))

/-- The alternatives of `parse_value` as expressions. -/
def valueChoices (fc : FromChars (double N)) :
    Choices [jsonValue N] (jsonValue N) [false, false, false, false, false, false] :=
  .cons (.intrinsic (.literalConstant (V := nullptr) () [nullLiteral])) (.convert fun _ => .null) <|
  .cons (.intrinsic .parseBool) (.convert .boolean) <|
  .cons (.intrinsic (.charconv fc)) (.convert .number) <|
  .cons stringViewExpr (.convert .string) <|
  .cons (.sequenceEnclosed (.charLiteral (ch '[')) (.charLiteral (ch ',')) (.charLiteral (ch ']'))
    (.var .zero)) (.convert .array) <|
  .cons (.parseMap (JsonObject N) (.charLiteral (ch '{')) (.charLiteral (ch ','))
    (.charLiteral (ch ':')) (.charLiteral (ch '}')) stringViewExpr (.var .zero)) (.convert .object) .nil

/-- `parse_value` as an expression. -/
def valueExpr (fc : FromChars (double N)) : Expr [] false (jsonValue N) :=
  .recurseConstant (.either (valueChoices fc))

theorem eval_valueExpr (mem : Memory) (fc : FromChars (double N)) :
    (valueExpr fc).eval mem Env.nil = parseValue mem fc := rfl

/-- `parse_json` returns on every valid state, and takes at least a character when it succeeds. -/
theorem parseJson_returns (mem : Memory) (fc : FromChars (double N)) (hst : st.Valid) :
    ((parseJson mem fc).parse st).isSome ∧ ∀ st' v,
      (parseJson mem fc).run st = some (some (st', v)) →
        st'.Suffix st ∧ st._begin + 1 ≤ st'._begin := by
  let e : Expr [] false (jsonValue N) :=
    .enclose (.intrinsic .whitespace) (valueExpr fc) (.intrinsic .whitespace)
  exact ⟨e.isSome_parse mem rfl hst,
    fun st' v hr => e.takes_eval (Env.ends_nil st).takes st st' v hst hr⟩

end

end Noam
