import Noam.Abstraction
import Noam.Texts

/-!
# Two evaluations side by side

`p.Rel R p'` says that from states related by `R` the two parsers have no result both, or results
that cannot be told apart: equally good, with the same value, and in related states when good. Every
combinator respects it, also where the two sides differ in which results are known to be good. The
value of a failed result counts, since `lookahead` can bring it back.
-/

namespace Noam
open GetResult ValueType Loop Attempt

variable {U V W T : ValueType} {g g' : Bool} {gs gs' : List Bool} {Vs : List ValueType}
variable {R : State → State → Prop} {s t : State}

structure GetResult.Rel (R : State → State → Prop) (r : GetResult V g) (r' : GetResult V g') :
    Prop where
  toBool : r.toBool = r'.toBool
  value : r.getValue? = r'.getValue?
  state : r.toBool = true → R r.getState r'.getState

def Parser.Rel (R : State → State → Prop) (p : Parser g V) (p' : Parser g' V) : Prop :=
  ∀ s t, R s t → Option.Rel (GetResult.Rel R) (p.parse s) (p'.parse t)

inductive Parsers.Rel (R : State → State → Prop) : {gs gs' : List Bool} → {Vs : List ValueType} →
    Parsers gs Vs → Parsers gs' Vs → Prop
  | nil : Rel R .nil .nil
  | cons {g g' : Bool} {V : ValueType} {gs gs' : List Bool} {Vs : List ValueType} {p : Parser g V}
      {p' : Parser g' V} {ps : Parsers gs Vs} {ps' : Parsers gs' Vs} (h : p.Rel R p')
      (hs : Rel R ps ps') : Rel R (.cons p ps) (.cons p' ps')

inductive Alternatives.Rel (R : State → State → Prop) : {gs gs' : List Bool} →
    Alternatives W gs → Alternatives W gs' → Prop
  | nil : Rel R .nil .nil
  | cons {g g' : Bool} {V : ValueType} {gs gs' : List Bool} {p : Parser g V} {p' : Parser g' V}
      {ps : Alternatives W gs} {ps' : Alternatives W gs'} (conv : Conversion V W) (h : p.Rel R p')
      (hs : Rel R ps ps') : Rel R (.cons p conv ps) (.cons p' conv ps')

/-- Results of the two kinds are equally good in related states. -/
def KeptAlike (R : State → State → Prop) (g g' : Bool) : Prop :=
  ∀ V s t, R s t → kept g V s = kept g' V t

theorem keptAlike_refl (h : ∀ s t, R s t → s.good = t.good) (g : Bool) : KeptAlike R g g := by
  intro V s t hst
  rw [kept, kept, h s t hst]

theorem keptAlike_of_good (h : ∀ s t, R s t → s.good = true ∧ t.good = true) (g g' : Bool) :
    KeptAlike R g g' := by
  intro V s t hst
  rw [kept_of_good (h s t hst).1, kept_of_good (h s t hst).2]

theorem keptAlike_true : KeptAlike R true true := fun _ _ _ _ => rfl

/-! ### Results -/

section
variable {r : GetResult V g} {r' : GetResult V g'}

theorem GetResult.rel_of (hk : KeptAlike R g g') (h : R s t) (v : V) :
    GetResult.Rel R (of s v : GetResult V g) (of t v : GetResult V g') := by
  refine ⟨?_, ?_, fun _ => ?_⟩
  · rw [toBool_of, toBool_of, hk V s t h]
  · rw [getValue?_of, getValue?_of]
  · rwa [getState_of, getState_of]

theorem GetResult.rel_failed : GetResult.Rel R (failed : GetResult V false) (failed : GetResult V false) :=
  ⟨rfl, rfl, fun h => by rw [toBool_failed] at h; cases h⟩

theorem GetResult.Rel.outcome (h : r.Rel R r') : Agree R Eq r.outcome r'.outcome := by
  by_cases hb : r.toBool = true
  · have hb' : r'.toBool = true := h.toBool ▸ hb
    obtain ⟨v, hv⟩ := Option.isSome_iff_exists.1 (getValue?_isSome hb)
    have hv' : r'.getValue? = some v := h.value ▸ hv
    rw [GetResult.outcome, GetResult.outcome, if_pos hb, if_pos hb', hv, hv']
    exact .some ⟨h.state hb, rfl⟩
  · have hb : r.toBool = false := by simpa using hb
    rw [outcome_eq_none hb, outcome_eq_none (h.toBool ▸ hb)]
    exact .none

theorem GetResult.Rel.toResult_right (hk : KeptAlike R g false) (h : r.Rel R r') :
    r.Rel R r'.toResult := by
  refine ⟨?_, ?_, fun hb => ?_⟩
  · rw [toBool_toResult, ← h.toBool]
    by_cases hb : r.toBool = true
    · rw [hb, ← hk V _ _ (h.state hb), kept_of_toBool hb]; rfl
    · simp [hb]
  · rw [getValue?_toResult, h.value]
  · rw [getState_toResult]; exact h.state hb

theorem GetResult.Rel.toResult_left (hk : KeptAlike R false g') (h : r.Rel R r') :
    r.toResult.Rel R r' := by
  refine ⟨?_, ?_, fun hb => ?_⟩
  · rw [toBool_toResult]
    by_cases hb : r.toBool = true
    · have hb' : r'.toBool = true := h.toBool ▸ hb
      rw [hb, hk V _ _ (h.state hb), kept_of_toBool hb', hb']; rfl
    · rw [← h.toBool]; simp [hb]
  · rw [getValue?_toResult, h.value]
  · rw [toBool_toResult, Bool.and_eq_true] at hb
    rw [getState_toResult]; exact h.state hb.1

/-- Both results made fallible. -/
theorem GetResult.Rel.toResult (hk : KeptAlike R false false) (h : r.Rel R r') :
    r.toResult.Rel R r'.toResult := by
  refine ⟨?_, ?_, fun hb => ?_⟩
  · rw [toBool_toResult, toBool_toResult, ← h.toBool]
    by_cases hb : r.toBool = true
    · rw [hk V _ _ (h.state hb)]
    · simp [hb]
  · rw [getValue?_toResult, getValue?_toResult, h.value]
  · rw [toBool_toResult, Bool.and_eq_true] at hb
    rw [getState_toResult, getState_toResult]; exact h.state hb.1

theorem GetResult.Rel.setState (hk : KeptAlike R g g') (h : r.Rel R r') (hst : R s t) :
    (r.setState s).Rel R (r'.setState t) := by
  refine ⟨?_, ?_, fun _ => ?_⟩
  · rw [toBool_setState, toBool_setState, hk V s t hst, h.value]
  · rw [getValue?_setState, getValue?_setState, h.value]
  · rwa [getState_setState, getState_setState]

end

/-! ### Parsers and attempts -/

theorem Parser.Rel.run {p : Parser g V} {p' : Parser g' V} (h : p.Rel R p') :
    Attempt.Rel R R Eq p.run p'.run :=
  fun s t hst => Loop.rel_map (h s t hst) fun _ _ hr => hr.outcome

theorem rel_ofAttempt {A A' : Attempt State V} (hk : KeptAlike R g g') (hA : Attempt.Rel R R Eq A A')
    (hg : g = true → NeverFails A) (hg' : g' = true → NeverFails A') :
    (Parser.ofAttempt g A).Rel R (Parser.ofAttempt g' A') := by
  intro s t hst
  have h := hA s t hst
  rw [Parser.parse_ofAttempt, Parser.parse_ofAttempt]
  rcases hs : A s with _ | x <;> rcases ht : A' t with _ | x' <;> rw [hs, ht] at h <;> cases h
  · exact .none
  · rename_i h
    cases h with
    | none =>
      cases g
      · cases g'
        · exact .some rel_failed
        · exact absurd ht (hg' rfl t)
      · exact absurd hs (hg rfl s)
    | @some x x' h =>
      obtain ⟨hst', hv⟩ := h
      obtain ⟨s', v⟩ := x
      obtain ⟨t', v'⟩ := x'
      obtain rfl : v = v' := hv
      rw [Option.bind_some, Option.bind_some, ofOutcome_some, ofOutcome_some]
      exact .some (rel_of hk hst' v)

theorem Parser.Rel.toFallible {p : Parser g V} {p' : Parser g' V} (hk : KeptAlike R g false)
    (h : p.Rel R p') : p.Rel R p'.toFallible := by
  intro s t hst
  show Option.Rel _ (p.parse s) ((p'.parse t).map GetResult.toResult)
  have hm := Loop.rel_map (f := id) (h s t hst) fun _ _ hr => hr.toResult_right hk
  rwa [Option.map_id] at hm

theorem Parsers.Rel.runAll {gs gs' : List Bool} {Vs : List ValueType} {ps : Parsers gs Vs}
    {ps' : Parsers gs' Vs} (h : ps.Rel R ps') : Attempt.Rel R R Eq ps.runAll ps'.runAll := by
  induction h with
  | nil => exact rel_pure rfl
  | cons h _ ih =>
    refine rel_bind h.run fun v v' hv => ?_
    subst hv
    exact rel_map ih fun vs vs' hvs => by rw [hvs]

theorem Alternatives.Rel.runFirst {gs gs' : List Bool} {ps : Alternatives W gs}
    {ps' : Alternatives W gs'} (h : ps.Rel R ps') : Attempt.Rel R R Eq ps.runFirst ps'.runFirst := by
  induction h with
  | nil => exact rel_fail
  | cons conv h _ ih => exact rel_orElse (rel_map h.run fun v v' hv => by rw [hv]) ih

/-! ### Combinators -/

section
variable {p : Parser g V} {p' : Parser g' V}

theorem map_rel (hk : KeptAlike R g g') (func : V → W) (h : p.Rel R p') :
    (map func p).Rel R (map func p') := by
  rw [map_eq, map_eq]
  refine rel_ofAttempt hk (rel_map h.run fun v v' hv => by rw [hv]) ?_ ?_
  · rintro rfl; exact p.neverFails.map func
  · rintro rfl; exact p'.neverFails.map func

theorem shiftRight_rel {g₂ g₂' : Bool} {q : Parser g₂ W} {q' : Parser g₂' W}
    (hk : KeptAlike R false false) (h : p.Rel R p') (hq : q.Rel R q') :
    (shiftRight p q).Rel R (shiftRight p' q') := by
  rw [shiftRight_eq, shiftRight_eq]
  exact rel_ofAttempt hk (rel_bind h.run fun _ _ _ => hq.run) (by simp) (by simp)

theorem enclose_rel {g₁ g₂ g₁' g₂' : Bool} {pre : Parser g₁ U} {pre' : Parser g₁' U}
    {post : Parser g₂ W} {post' : Parser g₂' W} (hk : KeptAlike R false false)
    (hpre : pre.Rel R pre') (h : p.Rel R p') (hpost : post.Rel R post') :
    (enclose pre p post).Rel R (enclose pre' p' post') := by
  rw [enclose_eq, enclose_eq]
  refine rel_ofAttempt hk (rel_bind hpre.run fun _ _ _ => rel_bind h.run fun v v' hv => ?_)
    (by simp) (by simp)
  subst hv
  exact rel_map hpost.run fun _ _ _ => rfl

theorem match_rel {ps : Parsers gs Vs} {ps' : Parsers gs' Vs}
    (hk : KeptAlike R (gs.all id) (gs'.all id)) (h : ps.Rel R ps') :
    (match_ ps).Rel R (match_ ps') := by
  rw [match_eq, match_eq]
  exact rel_ofAttempt hk (rel_map h.runAll fun _ _ _ => rfl)
    (fun hg => (ps.neverFails_runAll hg).map _) (fun hg => (ps'.neverFails_runAll hg).map _)

theorem rel_ifParse {β : Type} {Q : β → β → Prop} {yes yes' : State → V → Option β}
    {no no' : Option β} (h : p.Rel R p') (hyes : ∀ s t v, R s t → Option.Rel Q (yes s v) (yes' t v))
    (hno : Option.Rel Q no no') (hst : R s t) :
    Option.Rel Q (p.ifParse s yes no) (p'.ifParse t yes' no') := by
  rw [Parser.ifParse_eq, Parser.ifParse_eq]
  refine Loop.rel_bind (h.run s t hst) fun x x' hx => ?_
  cases hx with
  | none => exact hno
  | @some x x' hx =>
    obtain ⟨s', v⟩ := x
    obtain ⟨t', v'⟩ := x'
    obtain ⟨hst', rfl⟩ := hx
    exact hyes s' t' v hst'

theorem joinLast_rel {g₁ g₁' : Bool} {m : Parser g₁ empty} {m' : Parser g₁' empty}
    (hk : KeptAlike R false false) (hk₁ : KeptAlike R g₁ g₁') (hm : m.Rel R m') (h : p.Rel R p') :
    (joinLast m p).Rel R (joinLast m' p') := by
  intro s t hst
  cases g₁ <;> cases g₁'
  · exact rel_ifParse hm (fun s t _ hst => Loop.rel_bind (h s t hst) fun _ _ hr =>
      .some (hr.toResult hk)) (.some rel_failed) hst
  · have hk₂ : KeptAlike R false g' := by cases g' <;> assumption
    refine Loop.rel_bind (hm s t hst) fun r r' hr => ?_
    have ho := hr.outcome
    generalize r.outcome = o at ho ⊢
    cases ho with
    | some ho =>
      rw [← Option.bind_fun_some (x := p'.parse r'.getState)]
      exact Loop.rel_bind (h _ _ ho.1) fun _ _ hr => .some (hr.toResult_left hk₂)
  · have hk₂ : KeptAlike R g false := by cases g <;> assumption
    refine Loop.rel_bind (hm s t hst) fun r r' hr => ?_
    have ho := hr.outcome
    generalize r'.outcome = o at ho ⊢
    cases ho with
    | some ho =>
      rw [← Option.bind_fun_some (x := p.parse r.getState)]
      exact Loop.rel_bind (h _ _ ho.1) fun _ _ hr => .some (hr.toResult_right hk₂)
  · exact Loop.rel_bind (hm s t hst) fun r r' hr => h _ _ (hr.state rfl)

theorem join_rel {ps : Parsers gs Vs} {ps' : Parsers gs' Vs} (hk : KeptAlike R false false)
    (hk₁ : KeptAlike R (gs.all id) (gs'.all id)) (hs : ps.Rel R ps') (h : p.Rel R p') :
    (join ps p).Rel R (join ps' p') := by
  cases hs with
  | nil => exact h
  | cons hq hs => exact joinLast_rel hk hk₁ (match_rel hk₁ (.cons hq hs)) h

theorem either_rel {ps : Alternatives W gs} {ps' : Alternatives W gs'}
    (hk : KeptAlike R (eitherGood gs) (eitherGood gs')) (h : ps.Rel R ps') :
    (either ps).Rel R (either ps') := by
  cases h with
  | nil => exact fun _ _ _ => .some rel_failed
  | cons conv hp hs =>
    cases hs with
    | nil =>
      cases conv with
      | same => exact hp
      | convert f => exact map_rel hk f hp
    | cons conv' hp' hs =>
      rw [either_eq, either_eq]
      exact rel_ofAttempt hk (Alternatives.Rel.cons conv hp (.cons conv' hp' hs)).runFirst
        (neverFails_either _) (neverFails_either _)

theorem make_rel {ps : Parsers gs Vs} {ps' : Parsers gs' Vs} (construct : ValuesOf Vs → T)
    (hk : KeptAlike R (makeGood gs) (makeGood gs')) (h : ps.Rel R ps') :
    (make construct ps).Rel R (make construct ps') := by
  rw [make_eq, make_eq]
  exact rel_ofAttempt hk (rel_map h.runAll fun _ _ hvs => by rw [hvs]) (neverFails_make construct ps)
    (neverFails_make construct ps')

theorem makeVariadic_rel {ps : Parsers gs Vs} {ps' : Parsers gs' Vs} (construct : ValuesOf Vs → T)
    (hk : KeptAlike R false false) (h : ps.Rel R ps') :
    (makeVariadic construct ps).Rel R (makeVariadic construct ps') := by
  rw [makeVariadic_eq, makeVariadic_eq]
  exact rel_ofAttempt hk (rel_map h.runAll fun _ _ hvs => by rw [hvs]) (by simp) (by simp)

theorem testThen_rel (func : V → Unit) (h : p.Rel R p') :
    (testThen p func).Rel R (testThen p' func) := by
  rw [testThen_eq, testThen_eq]
  exact rel_ofAttempt keptAlike_true (rel_orElse (rel_map h.run fun _ _ _ => rfl) (rel_pure rfl))
    (fun _ => .orElse_right (neverFails_pure _)) (fun _ => .orElse_right (neverFails_pure _))

theorem tryParse_rel (h : p.Rel R p') : (tryParse p).Rel R (tryParse p') := by
  rw [tryParse_eq, tryParse_eq]
  exact rel_ofAttempt keptAlike_true
    (rel_orElse (rel_map h.run fun v v' hv => by rw [hv]) (rel_pure rfl))
    (fun _ => .orElse_right (neverFails_pure _)) (fun _ => .orElse_right (neverFails_pure _))

theorem tryLookahead_rel (h : p.Rel R p') : (tryLookahead p).Rel R (tryLookahead p') := by
  rw [tryLookahead_eq, tryLookahead_eq]
  refine rel_ofAttempt keptAlike_true (rel_map (rel_peek h.run) fun o o' ho => ?_)
    (fun _ => (neverFails_peek _).map _) (fun _ => (neverFails_peek _).map _)
  rw [Loop.rel_eq.1 ho]

theorem lookahead_rel (hk : KeptAlike R g g') (h : p.Rel R p') :
    (lookahead p).Rel R (lookahead p') :=
  fun s t hst => Loop.rel_bind (h s t hst) fun _ _ hr => .some (hr.setState hk hst)

theorem test_rel {p : Parser g bool} {p' : Parser g' bool} (h : p.Rel R p') :
    (test p).Rel R (test p') := by
  intro s t hst
  refine Loop.rel_bind (h s t hst) fun r r' hr => .some ⟨rfl, ?_, fun _ => hst⟩
  show some (r.getValue?.getD false) = some (r'.getValue?.getD false)
  rw [hr.value]

theorem foldLeft_rel {g₂ g₂' : Bool} {q : Parser g₂ W} {q' : Parser g₂' W} (op : V → W → V)
    (hk : KeptAlike R false false) (h : p.Rel R p') (hq : q.Rel R q') :
    (foldLeft p q op).Rel R (foldLeft p' q' op) := by
  rw [foldLeft_eq, foldLeft_eq]
  refine rel_ofAttempt hk (rel_bind h.run fun a a' ha => rel_iterate (fun b b' hb => ?_) ha)
    (by simp) (by simp)
  subst hb
  exact rel_map hq.run fun v v' hv => by rw [hv]

theorem sequence_rel {g₂ g₂' : Bool} {sep : Parser g₂ W} {sep' : Parser g₂' W} (h : p.Rel R p')
    (hsep : sep.Rel R sep') : (sequence p sep).Rel R (sequence p' sep') := by
  rw [sequence_eq, sequence_eq]
  exact rel_ofAttempt keptAlike_true (rel_sepBy_same _ _ hsep.run h.run)
    (fun _ => neverFails_sepBy _ _ _ _) (fun _ => neverFails_sepBy _ _ _ _)

end

/-- The relations that the parsers inside of `separator`, `sequence` and `parse_map` respect. -/
structure Respected (mem : Memory) (R : State → State → Prop) : Prop where
  kept : KeptAlike R false false
  literal : ∀ lits, (literal mem lits).Rel R (literal mem lits)
  zeroOrMoreChars : ∀ chars, (zeroOrMoreChars mem chars).Rel R (zeroOrMoreChars mem chars)

namespace Respected
variable {mem : Memory} (hR : Respected mem R)
include hR

theorem separator (sep : List AnyLiteral) : (separator mem sep).Rel R (separator mem sep) :=
  match_rel hR.kept (.cons (hR.zeroOrMoreChars _) (.cons (hR.literal _)
    (.cons (hR.zeroOrMoreChars _) .nil)))

theorem openParser (opening : AnyLiteral) :
    (openParser mem opening).Rel R (openParser mem opening) :=
  match_rel hR.kept (.cons (hR.literal _) (.cons (hR.zeroOrMoreChars _) .nil))

theorem closeParser (closing : AnyLiteral) :
    (closeParser mem closing).Rel R (closeParser mem closing) :=
  match_rel hR.kept (.cons (hR.zeroOrMoreChars _) (.cons (hR.literal _) .nil))

variable {p : Parser g V} {p' : Parser g' V}

theorem sequenceSep (sep : AnyLiteral) (h : p.Rel R p') :
    (sequenceSep mem sep p).Rel R (sequenceSep mem sep p') :=
  sequence_rel h (hR.separator [sep])

theorem sequenceEnclosed (opening sep closing : AnyLiteral) (h : p.Rel R p') :
    (sequenceEnclosed mem opening sep closing p).Rel R
      (sequenceEnclosed mem opening sep closing p') := by
  rw [sequenceEnclosed_eq, sequenceEnclosed_eq]
  refine rel_ofAttempt hR.kept (rel_bind (hR.openParser opening).run fun _ _ _ =>
    rel_bind (rel_sepBy_same _ _ (hR.separator [sep]).run h.run) fun v v' hv => ?_) (by simp) (by simp)
  subst hv
  exact rel_map (hR.closeParser closing).run fun _ _ _ => rfl

theorem makePair {g₂ g₂' : Bool} {q : Parser g₂ W} {q' : Parser g₂' W} (sep : AnyLiteral)
    (h : p.Rel R p') (hq : q.Rel R q') : (makePair mem sep p q).Rel R (makePair mem sep p' q') :=
  makeVariadic_rel _ hR.kept
    (.cons h (.cons (join_rel hR.kept hR.kept (.cons (hR.separator [sep]) .nil) hq) .nil))

theorem parseMap {g₂ g₂' : Bool} {q : Parser g₂ W} {q' : Parser g₂' W} (M : Type) [EmplaceMap M V W]
    (opening elemSep keyValueSep closing : AnyLiteral) (h : p.Rel R p') (hq : q.Rel R q') :
    (parseMap mem M opening elemSep keyValueSep closing p q).Rel R
      (parseMap mem M opening elemSep keyValueSep closing p' q') := by
  rw [parseMap_eq, parseMap_eq]
  refine rel_ofAttempt hR.kept (rel_bind (hR.openParser opening).run fun _ _ _ =>
    rel_bind (rel_sepBy_same _ _ (hR.separator [elemSep]).run (hR.makePair keyValueSep h hq).run)
      fun v v' hv => ?_) (by simp) (by simp)
  subst hv
  exact rel_map (hR.closeParser closing).run fun _ _ _ => rfl

end Respected

/-! ### Recursion -/

section
variable {func : Parser false T → Parser g T} {func' : Parser false T → Parser g' T}

theorem recurseConstant_rel (hk : KeptAlike R false false)
    (h : ∀ q q', q.Rel R q' → (func q).Rel R (func' q')) :
    (recurseConstant func).Rel R (recurseConstant func') := by
  have hwithin : ∀ depth, (recurseConstantWithin func depth).Rel R
      (recurseConstantWithin func' depth) := by
    intro depth
    induction depth with
    | zero => exact fun _ _ _ => .none
    | succ depth ih =>
      exact fun s t hst => Loop.rel_bind (h _ _ ih s t hst) fun _ _ hr => .some (hr.toResult hk)
  exact fun s t hst => Loop.rel_search fun depth => hwithin depth s t hst

theorem recurse_rel (hk : KeptAlike R false false)
    (h : ∀ q q', q.Rel R q' → (func q).Rel R (func' q')) : (recurse func).Rel R (recurse func') := by
  rw [recurse_eq, recurse_eq]
  exact recurseConstant_rel hk h

end

end Noam
