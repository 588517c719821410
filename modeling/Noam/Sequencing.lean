import Noam.Refinement

/-!
# The sequencing constructs agree

`match`, `join`, chains of `>>`, `make`, `enclose` and `separator` run their parsers one after the other
and differ in the value they return.
-/

namespace Noam
open GetResult ValueType Loop Attempt

variable {A B C V W T : ValueType} {g g' ga gb gc : Bool} {gs gs' : List Bool}
variable {Vs Vs' : List ValueType} {st st' : State}

namespace Parsers

def append : {gs gs' : List Bool} → {Vs Vs' : List ValueType} → Parsers gs Vs → Parsers gs' Vs' →
    Parsers (gs ++ gs') (Vs ++ Vs')
  | _, _, _, _, nil, qs => qs
  | _, _, _, _, cons p ps, qs => cons p (ps.append qs)

def snoc (ps : Parsers gs Vs) (p : Parser g V) : Parsers (gs ++ [g]) (Vs ++ [V]) :=
  ps.append (cons p nil)

/-- Every parser succeeds on the state that the one before left; the last one leaves `st'`. -/
inductive Steps : {gs : List Bool} → {Vs : List ValueType} → Parsers gs Vs → State → State → Prop
  | nil {st : State} : Steps .nil st st
  | cons {g : Bool} {V : ValueType} {gs : List Bool} {Vs : List ValueType} {p : Parser g V}
      {ps : Parsers gs Vs} {st st₁ st' : State} {v : V} (h : p.run st = some (some (st₁, v)))
      (hs : Steps ps st₁ st') : Steps (.cons p ps) st st'

theorem skipAll_eq_some_iff {gs : List Bool} {Vs : List ValueType} {ps : Parsers gs Vs} {u : Unit} :
    ps.skipAll st = some (some (st', u)) ↔ ps.Steps st st' := by
  induction ps generalizing st with
  | nil =>
    constructor
    · intro h; cases h; exact .nil
    · intro h; cases h; rfl
  | cons p ps ih =>
    rw [skipAll_cons]
    constructor
    · intro h
      obtain ⟨st₁, v, hp, hs⟩ := bind_eq_some h
      exact .cons hp (ih.1 hs)
    · intro h
      cases h with
      | cons hp hs => rw [bind_some hp]; exact ih.2 hs

theorem skipAll_append : {gs gs' : List Bool} → {Vs Vs' : List ValueType} → (ps : Parsers gs Vs) →
    (qs : Parsers gs' Vs') → (ps.append qs).skipAll = bind ps.skipAll fun _ => qs.skipAll
  | _, _, _, _, nil, _ => rfl
  | _, _, _, _, cons p ps, qs => by
    rw [append, skipAll_cons, skipAll_cons, bind_assoc, skipAll_append ps qs]

theorem skipAll_singleton (p : Parser g V) :
    (cons p nil).skipAll = Attempt.map (fun _ => ()) p.run := by
  rw [skipAll_cons]; rfl

theorem KeepNonNull.append : {gs gs' : List Bool} → {Vs Vs' : List ValueType} →
    {ps : Parsers gs Vs} → {qs : Parsers gs' Vs'} → ps.KeepNonNull → qs.KeepNonNull →
    (ps.append qs).KeepNonNull
  | _, _, _, _, nil, _, _, hqs => hqs
  | _, _, _, _, cons _ _, _, h, hqs => ⟨h.1, h.2.append hqs⟩

end Parsers

/-! ### Chains of `>>` -/

/-- A bracketing of `p1 >> p2 >> ... >> pn`, indexed by its parsers but the last and by the last. -/
inductive Chain : List Bool → List ValueType → Bool → ValueType → Type 1 where
  | leaf {g : Bool} {V : ValueType} (p : Parser g V) : Chain [] [] g V
  | node {gs gs' : List Bool} {Vs Vs' : List ValueType} {g g' : Bool} {V W : ValueType}
      (l : Chain gs Vs g V) (r : Chain gs' Vs' g' W) : Chain (gs ++ g :: gs') (Vs ++ V :: Vs') g' W

namespace Chain

/-- Whether the parser is always good: only a single parser can be. -/
def good : {gs : List Bool} → {Vs : List ValueType} → {g : Bool} → {V : ValueType} →
    Chain gs Vs g V → Bool
  | _, _, g, _, leaf _ => g
  | _, _, _, _, node _ _ => false

def parser : {gs : List Bool} → {Vs : List ValueType} → {g : Bool} → {V : ValueType} →
    (c : Chain gs Vs g V) → Parser c.good V
  | _, _, _, _, leaf p => p
  | _, _, _, _, node l r => l.parser >>> r.parser

def last : {gs : List Bool} → {Vs : List ValueType} → {g : Bool} → {V : ValueType} →
    Chain gs Vs g V → Parser g V
  | _, _, _, _, leaf p => p
  | _, _, _, _, node _ r => r.last

def init : {gs : List Bool} → {Vs : List ValueType} → {g : Bool} → {V : ValueType} →
    Chain gs Vs g V → Parsers gs Vs
  | _, _, _, _, leaf _ => .nil
  | _, _, _, _, node l r => l.init.append (.cons l.last r.init)

end Chain

theorem Parsers.keepNonNull_append : {gs gs' : List Bool} → {Vs Vs' : List ValueType} →
    {ps : Parsers gs Vs} → {qs : Parsers gs' Vs'} → (ps.append qs).KeepNonNull →
    ps.KeepNonNull ∧ qs.KeepNonNull
  | _, _, _, _, nil, _, h => ⟨trivial, h⟩
  | _, _, _, _, cons _ _, _, h => ⟨⟨h.1, (keepNonNull_append h.2).1⟩, (keepNonNull_append h.2).2⟩

/-- The brackets of a chain do not matter. -/
theorem chain_refines {gs : List Bool} {Vs : List ValueType} {g : Bool} {V : ValueType}
    (c : Chain gs Vs g V) (hi : c.init.KeepNonNull) (hl : c.last.KeepsNonNull) :
    c.parser.Refines (bind c.init.skipAll fun _ => c.last.run) := by
  induction c with
  | leaf p => exact hl.refines
  | node l r ihl ihr =>
    obtain ⟨hli, hll, hri⟩ := Parsers.keepNonNull_append hi
    have h := shiftRight_refines (ihl hli hll) (ihr hri hl)
    rw [Chain.init, Parsers.skipAll_append, Parsers.skipAll_cons, bind_assoc]
    rw [bind_assoc] at h
    simp only [bind_assoc] at h ⊢
    exact h

/-- All sequencing constructs take the same steps: they succeed when every parser succeeds on the
state left by the one before, and leave the state that the last one leaves. `join` and chains of `>>`
return the value of the last parser, `enclose` that of the second of three. -/
theorem sequencing_agrees {ps : Parsers gs Vs} {p : Parser g V} (c : Chain gs Vs g V)
    (hinit : c.init = ps) (hlast : c.last = p) (construct : ValuesOf (Vs ++ [V]) → T)
    {a : Parser ga A} {b : Parser gb B} {d : Parser gc C} (mem : Memory) (sep : List AnyLiteral)
    (hps : ps.KeepNonNull) (hp : p.KeepsNonNull) (ha : a.KeepsNonNull) (hb : b.KeepsNonNull)
    (hd : d.KeepsNonNull) (hst : st.good = true) :
    (∀ st' v, (join ps p).run st = some (some (st', v)) ↔
      ∃ st₁, ps.Steps st st₁ ∧ p.run st₁ = some (some (st', v))) ∧
    c.parser.run st = (join ps p).run st ∧
    (match_ (ps.snoc p)).run st = ((join ps p).run st).map (Option.map fun x => (x.1, ())) ∧
    ((make construct (ps.snoc p)).run st).map (Option.map Prod.fst) =
      ((join ps p).run st).map (Option.map Prod.fst) ∧
    (enclose a b d).run st =
      (make (T := B) (fun x : ValuesOf [A, B, C] => x.2.1) (.cons a (.cons b (.cons d .nil)))).run st ∧
    (separator mem sep).run st = (whitespace mem >>> literal mem sep >>> whitespace mem).run st := by
  have hj := join_refines hps hp.refines
  have hsnoc : (ps.snoc p).KeepNonNull := hps.append ⟨hp, trivial⟩
  have hskip : (ps.snoc p).skipAll = Attempt.map (fun _ => ()) (bind ps.skipAll fun _ => p.run) := by
    rw [Parsers.snoc, Parsers.skipAll_append, Parsers.skipAll_singleton, map_bind]
  have habd : (Parsers.cons a (.cons b (.cons d .nil))).KeepNonNull := ⟨ha, hb, hd, trivial⟩
  have hws := (whitespace_keepsNonNull mem).refines
  refine ⟨fun st' v => ?_, ?_, ?_, ?_, ?_, ?_⟩
  · rw [hj.run_eq hst]
    constructor
    · intro h
      obtain ⟨st₁, u, hs, hv⟩ := bind_eq_some h
      exact ⟨st₁, Parsers.skipAll_eq_some_iff.1 hs, hv⟩
    · rintro ⟨st₁, hs, hv⟩
      rw [bind_some (Parsers.skipAll_eq_some_iff (u := ()).2 hs)]; exact hv
  · -- a chain and `join` both refine the same attempt, whatever the brackets of the chain
    subst hinit hlast
    rw [(chain_refines c hps hp).run_eq hst, hj.run_eq hst]
  · rw [(match_refines hsnoc).run_eq hst, hj.run_eq hst, hskip, map_apply]
  · -- `make` runs all of its parsers, and `hskip` forgets the values
    rw [(make_refines construct hsnoc).run_eq hst, map_fst, hj.run_eq hst,
      ← map_fst (fun _ => ()) (ps.snoc p).runAll,
      ← map_fst (fun _ => ()) (bind ps.skipAll fun _ => p.run), ← hskip]
    rfl
  · rw [(enclose_refines ha.refines hb.refines hd.refines).run_eq hst,
      (make_refines _ habd).run_eq hst]
    simp only [Parsers.runAll, map_bind]
    rfl
  · have hl := (literal_keepsNonNull mem sep).refines
    have hchain := shiftRight_refines (shiftRight_refines hws hl) hws
    rw [(separator_refines mem sep).run_eq hst, hchain.run_eq hst, bind_assoc]

/-- `whitespace >> parse_bool` on ` true`. -/
theorem sequencing_agrees_bool :
    let mem := Memory.ofText [ch ' ', ch 't', ch 'r', ch 'u', ch 'e']
    (match_ (.cons (whitespace mem) (.cons (boolParser mem) .nil))).run ⟨1, 6⟩ =
        some (some (⟨6, 6⟩, ())) ∧
      (whitespace mem >>> boolParser mem).run ⟨1, 6⟩ = some (some (⟨6, 6⟩, true)) := by
  intro mem
  have hws := whitespace_keepsNonNull mem
  have hb : (boolParser mem).KeepsNonNull := boolParser_advances.keepsNonNull
  have hst : State.good ⟨1, 6⟩ = true := rfl
  obtain ⟨hj, hc, hm, -⟩ := sequencing_agrees (T := empty)
    (.node (.leaf (whitespace mem)) (.leaf (boolParser mem))) rfl rfl (fun _ => ()) mem
    [.charLiteral (ch ',')] ⟨hws, trivial⟩ hb hws hws hws hst
  have hrun := (hj ⟨6, 6⟩ true).2 ⟨⟨2, 6⟩, .cons (v := ()) rfl .nil, rfl⟩
  exact ⟨hm.trans (by rw [hrun]; rfl), hc.trans hrun⟩

end Noam
