import Noam.Relation

/-!
# The combinators on non-null states

`p.Refines A` says that on non-null states `p` does what the attempt `A` does, and that these states
are not left. On them the two kinds of results do not differ, so every combinator refines the operation
of `Noam.Attempt` that it stands for, and the laws of these operations become laws of the combinators.
-/

namespace Noam
open GetResult ValueType Loop Attempt

variable {U V W T : ValueType} {g g' : Bool} {gs : List Bool} {Vs : List ValueType}
variable {s t st : State}

def NonNullRel (s t : State) : Prop := s = t ∧ s.good = true

def Parser.Refines (p : Parser g V) (A : Attempt State V) : Prop :=
  Attempt.Rel NonNullRel NonNullRel Eq p.run A

section
variable {p : Parser g V} {A B : Attempt State V}

theorem refines_iff : p.Refines A ↔ (∀ st, st.good = true → p.run st = A st) ∧ p.KeepsNonNull :=
  rel_eq_iff

theorem Parser.Refines.run_eq (h : p.Refines A) (hst : st.good = true) : p.run st = A st :=
  (refines_iff.1 h).1 st hst

theorem Parser.Refines.keepsNonNull (h : p.Refines A) : p.KeepsNonNull := (refines_iff.1 h).2

theorem Parser.KeepsNonNull.refines (h : p.KeepsNonNull) : p.Refines p.run :=
  refines_iff.2 ⟨fun _ _ => rfl, h⟩

/-- Attempts that agree on non-null states and do not leave them. -/
theorem rel_run_eq (h : Attempt.Rel NonNullRel NonNullRel Eq A B) (hst : st.good = true) :
    A st = B st := (rel_eq_iff.1 h).1 st hst

theorem Parser.Refines.trans (h : p.Refines A) (hAB : Attempt.Rel NonNullRel NonNullRel Eq A B) :
    p.Refines B :=
  refines_iff.2 ⟨fun _ hst => (h.run_eq hst).trans (rel_run_eq hAB hst), h.keepsNonNull⟩

theorem refines_ofAttempt (h : Attempt.Rel NonNullRel NonNullRel Eq A B)
    (hg : g = true → NeverFails A) : (Parser.ofAttempt g A).Refines B := by
  obtain ⟨heq, hk⟩ := rel_eq_iff.1 h
  have hrun : ∀ st, st.good = true → (Parser.ofAttempt g A).run st = A st :=
    fun st hst => run_ofAttempt_of_good hk hg hst
  refine refines_iff.2 ⟨fun st hst => (hrun st hst).trans (heq st hst), fun s s' v hs hr => ?_⟩
  rw [hrun s hs] at hr
  exact hk s s' v hs hr

theorem keptAlike_nonNull (g g' : Bool) : KeptAlike NonNullRel g g' :=
  keptAlike_of_good (by rintro s t ⟨rfl, hs⟩; exact ⟨hs, hs⟩) g g'

end

/-! ### Intrinsic parsers -/

theorem Parser.Advances.rel {p : Parser g V} (h : p.Advances) : p.Rel NonNullRel p := by
  rintro s _ ⟨rfl, hs⟩
  rcases hp : p.parse s with _ | r
  · exact .none
  · refine .some ⟨rfl, rfl, fun hb => ⟨rfl, ?_⟩⟩
    obtain ⟨v, hv⟩ := Option.isSome_iff_exists.1 (getValue?_isSome hb)
    have hrun : p.run s = some (some (r.getState, v)) := by
      rw [Parser.run_of_parse hp, GetResult.outcome, if_pos hb, hv]; rfl
    exact h.keepsNonNull s _ v hs hrun

theorem respected_nonNull (mem : Memory) : Respected mem NonNullRel :=
  ⟨keptAlike_nonNull false false, fun lits => (literal_advances lits).rel,
    fun chars => (zeroOrMoreChars_advances chars).rel⟩

theorem literal_keepsNonNull (mem : Memory) (lits : List AnyLiteral) :
    (literal mem lits).KeepsNonNull := (literal_advances lits).keepsNonNull

theorem whitespace_keepsNonNull (mem : Memory) : (whitespace mem).KeepsNonNull :=
  (zeroOrMoreChars_advances whitespaceChars).keepsNonNull

/-! ### Lists of parsers -/

/-- All parsers of a list, one after the other, for the state they leave. -/
def Parsers.skipAll (ps : Parsers gs Vs) : Attempt State Unit := Attempt.map (fun _ => ()) ps.runAll

theorem Parsers.skipAll_nil : Parsers.nil.skipAll = Attempt.pure () := rfl

theorem Parsers.skipAll_cons (p : Parser g V) (ps : Parsers gs Vs) :
    (Parsers.cons p ps).skipAll = bind p.run fun _ => ps.skipAll := by
  rw [skipAll, runAll, map_bind]
  have h : ∀ v : V, Attempt.map (fun _ => ()) (Attempt.map (fun vs => (v, vs)) ps.runAll) =
      ps.skipAll := fun v => map_map _ _ _
  exact congrArg (bind p.run) (funext h)

theorem Parsers.KeepNonNull.rel_runAll : {gs : List Bool} → {Vs : List ValueType} →
    {ps : Parsers gs Vs} → ps.KeepNonNull → Attempt.Rel NonNullRel NonNullRel Eq ps.runAll ps.runAll
  | _, _, _, h => keeps_iff_rel.1 (keeps_runAll h)

theorem Parsers.KeepNonNull.rel_skipAll {ps : Parsers gs Vs} (h : ps.KeepNonNull) :
    Attempt.Rel NonNullRel NonNullRel Eq ps.skipAll ps.skipAll :=
  rel_map h.rel_runAll fun _ _ _ => rfl

theorem Alternatives.KeepNonNull.rel_runFirst {ps : Alternatives W gs} (h : ps.KeepNonNull) :
    Attempt.Rel NonNullRel NonNullRel Eq ps.runFirst ps.runFirst :=
  keeps_iff_rel.1 (keeps_runFirst h)

/-! ### Combinators -/

section
variable {p : Parser g V} {q : Parser g' W} {A : Attempt State V} {B : Attempt State W}

theorem map_refines (func : V → W) (h : p.Refines A) : (map func p).Refines (Attempt.map func A) := by
  rw [map_eq]
  refine refines_ofAttempt (rel_map h fun v v' hv => by rw [hv]) ?_
  rintro rfl; exact p.neverFails.map func

theorem shiftRight_refines (h : p.Refines A) (hq : q.Refines B) :
    (p >>> q).Refines (bind A fun _ => B) := by
  show (shiftRight p q).Refines _
  rw [shiftRight_eq]
  exact refines_ofAttempt (rel_bind h fun _ _ _ => hq) (by simp)

theorem enclose_refines {g₀ : Bool} {pre : Parser g₀ U} {C : Attempt State U} (hpre : pre.Refines C)
    (h : p.Refines A) (hq : q.Refines B) :
    (enclose pre p q).Refines (bind C fun _ => bind A fun v => Attempt.map (fun _ => v) B) := by
  rw [enclose_eq]
  refine refines_ofAttempt (rel_bind hpre fun _ _ _ => rel_bind h fun v v' hv => ?_) (by simp)
  subst hv
  exact rel_map hq fun _ _ _ => rfl

theorem match_refines {ps : Parsers gs Vs} (h : ps.KeepNonNull) : (match_ ps).Refines ps.skipAll := by
  rw [match_eq]
  exact refines_ofAttempt h.rel_skipAll fun hg => (ps.neverFails_runAll hg).map _

theorem join_refines {ps : Parsers gs Vs} (hps : ps.KeepNonNull) (h : p.Refines A) :
    (join ps p).Refines (bind ps.skipAll fun _ => A) := by
  cases ps with
  | nil => exact h
  | cons q ps =>
    have hm := match_refines hps
    have hrel : Attempt.Rel NonNullRel NonNullRel Eq (bind (match_ (.cons q ps)).run fun _ => p.run)
        (bind (Parsers.cons q ps).skipAll fun _ => A) := rel_bind hm fun _ _ _ => h
    have hrun : ∀ st, st.good = true → (join (.cons q ps) p).run st =
        bind (match_ (.cons q ps)).run (fun _ => p.run) st := fun st hst =>
      joinLast_run (fun st' v hr => hm.keepsNonNull st st' v hst hr) h.keepsNonNull
    obtain ⟨heq, hk⟩ := rel_eq_iff.1 hrel
    refine refines_iff.2 ⟨fun st hst => (hrun st hst).trans (heq st hst), fun s s' v hs hr => ?_⟩
    rw [hrun s hs] at hr
    exact hk s s' v hs hr

theorem either_refines {ps : Alternatives W gs} (h : ps.KeepNonNull) :
    (either ps).Refines ps.runFirst := by
  have hof := refines_ofAttempt (g := eitherGood gs) h.rel_runFirst (neverFails_either ps)
  unfold Parser.Refines
  rw [run_either]
  exact hof

theorem make_refines (construct : ValuesOf Vs → T) {ps : Parsers gs Vs} (h : ps.KeepNonNull) :
    (make construct ps).Refines (Attempt.map construct ps.runAll) := by
  rw [make_eq]
  exact refines_ofAttempt (rel_map h.rel_runAll fun _ _ hvs => by rw [hvs])
    (neverFails_make construct ps)

theorem foldLeft_refines (op : V → W → V) (h : p.Refines A) (hq : q.Refines B) :
    (foldLeft p q op).Refines (bind A (iterate fun a => Attempt.map (op a) B)) := by
  rw [foldLeft_eq]
  refine refines_ofAttempt (rel_bind h fun a a' ha => rel_iterate (fun b b' hb => ?_) ha) (by simp)
  subst hb
  exact rel_map hq fun v v' hv => by rw [hv]

theorem sequence_refines (h : p.Refines A) (hq : q.Refines B) :
    (sequence p q).Refines (sepBy B A pushBack []) := by
  rw [sequence_eq]
  exact refines_ofAttempt (rel_sepBy_same _ _ hq h) fun _ => neverFails_sepBy _ _ _ _

end

section
variable {mem : Memory} {p : Parser g V} {A : Attempt State V}

theorem Parsers.skipAll_last (p : Parser g empty) : (Parsers.cons p .nil).skipAll = p.run := by
  rw [Parsers.skipAll_cons]
  exact Attempt.bind_pure _

theorem separator_refines (mem : Memory) (sep : List AnyLiteral) : (separator mem sep).Refines
    (bind (whitespace mem).run fun _ => bind (literal mem sep).run fun _ => (whitespace mem).run) := by
  have h : (Parsers.cons (whitespace mem) (.cons (literal mem sep)
      (.cons (whitespace mem) .nil))).KeepNonNull :=
    ⟨whitespace_keepsNonNull mem, literal_keepsNonNull mem sep, whitespace_keepsNonNull mem, trivial⟩
  have hm := match_refines h
  rwa [Parsers.skipAll_cons, Parsers.skipAll_cons, Parsers.skipAll_last] at hm

theorem openParser_refines (mem : Memory) (opening : AnyLiteral) : (openParser mem opening).Refines
    (bind (literal mem [opening]).run fun _ => (whitespace mem).run) := by
  have h : (Parsers.cons (literal mem [opening]) (.cons (whitespace mem) .nil)).KeepNonNull :=
    ⟨literal_keepsNonNull mem [opening], whitespace_keepsNonNull mem, trivial⟩
  have hm := match_refines h
  rwa [Parsers.skipAll_cons, Parsers.skipAll_last] at hm

theorem closeParser_refines (mem : Memory) (closing : AnyLiteral) : (closeParser mem closing).Refines
    (bind (whitespace mem).run fun _ => (literal mem [closing]).run) := by
  have h : (Parsers.cons (whitespace mem) (.cons (literal mem [closing]) .nil)).KeepNonNull :=
    ⟨whitespace_keepsNonNull mem, literal_keepsNonNull mem [closing], trivial⟩
  have hm := match_refines h
  rwa [Parsers.skipAll_cons, Parsers.skipAll_last] at hm

theorem separator_keepsNonNull (mem : Memory) (sep : List AnyLiteral) :
    (separator mem sep).KeepsNonNull := (separator_refines mem sep).keepsNonNull

theorem openParser_keepsNonNull (mem : Memory) (opening : AnyLiteral) :
    (openParser mem opening).KeepsNonNull := (openParser_refines mem opening).keepsNonNull

theorem closeParser_keepsNonNull (mem : Memory) (closing : AnyLiteral) :
    (closeParser mem closing).KeepsNonNull := (closeParser_refines mem closing).keepsNonNull

/-- Elements between an opening and a closing bracket. -/
def bracketed {X : Type} (mem : Memory) (opening sep closing : AnyLiteral) (elem : Attempt State V)
    (push : X → V → X) (a : X) : Attempt State X :=
  bind (openParser mem opening).run fun _ =>
    bind (sepBy (separator mem [sep]).run elem push a) fun value =>
      Attempt.map (fun _ => value) (closeParser mem closing).run

theorem rel_bracketed {X : Type} {B : Attempt State V} (mem : Memory)
    (opening sep closing : AnyLiteral) (push : X → V → X) (a : X)
    (h : Attempt.Rel NonNullRel NonNullRel Eq A B) :
    Attempt.Rel NonNullRel NonNullRel Eq (bracketed mem opening sep closing A push a)
      (bracketed mem opening sep closing B push a) := by
  refine rel_bind (openParser_keepsNonNull mem opening).refines fun _ _ _ =>
    rel_bind (rel_sepBy_same _ _ (separator_keepsNonNull mem [sep]).refines h) fun v v' hv => ?_
  subst hv
  exact rel_map (closeParser_keepsNonNull mem closing).refines fun _ _ _ => rfl

theorem sequenceSep_refines (mem : Memory) (sep : AnyLiteral) (h : p.Refines A) :
    (sequenceSep mem sep p).Refines (sepBy (separator mem [sep]).run A pushBack []) :=
  sequence_refines h (separator_keepsNonNull mem [sep]).refines

theorem sequenceEnclosed_refines (mem : Memory) (opening sep closing : AnyLiteral) (h : p.Refines A) :
    (sequenceEnclosed mem opening sep closing p).Refines
      (bracketed mem opening sep closing A pushBack []) := by
  rw [sequenceEnclosed_eq]
  exact refines_ofAttempt (rel_bracketed mem opening sep closing _ _ h) (by simp)

theorem makePair_refines {q : Parser g' W} {B : Attempt State W} (mem : Memory) (sep : AnyLiteral)
    (h : p.Refines A) (hq : q.Refines B) : (makePair mem sep p q).Refines
      (bind A fun v => bind (separator mem [sep]).run fun _ => Attempt.map (fun w => (v, w)) B) := by
  have hs : (Parsers.cons (separator mem [sep]) .nil).KeepNonNull :=
    ⟨separator_keepsNonNull mem [sep], trivial⟩
  have hj := join_refines hs hq
  rw [Parsers.skipAll_cons, Parsers.skipAll_nil, bind_assoc] at hj
  unfold makePair
  rw [makeVariadic_eq]
  refine refines_ofAttempt ?_ (by simp)
  simp only [Parsers.runAll, map_bind]
  refine rel_bind h fun v v' hv => ?_
  subst hv
  have hm : Attempt.Rel NonNullRel NonNullRel Eq
      (Attempt.map (fun w => (v, w)) (join (.cons (separator mem [sep]) .nil) q).run)
      (bind (separator mem [sep]).run fun _ => Attempt.map (fun w => (v, w)) B) := by
    rw [← map_bind]
    exact rel_map hj fun w w' hw => by rw [hw]
  exact hm

theorem parseMap_refines {q : Parser g' W} (M : Type) [EmplaceMap M V W]
    (opening elemSep keyValueSep closing : AnyLiteral) {C : Attempt State (V × W)}
    (h : (makePair mem keyValueSep p q).Refines C) :
    (parseMap mem M opening elemSep keyValueSep closing p q).Refines
      (bracketed (V := pair V W) mem opening elemSep closing C emplaceEntry
        (EmplaceMap.empty V W : M)) := by
  rw [parseMap_eq]
  exact refines_ofAttempt (rel_bracketed mem opening elemSep closing _ _ h) (by simp)

end

end Noam
