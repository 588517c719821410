import Noam.Refinement

/-!
# `either` is ordered choice

The overloads of `either` for one to four parsers and the variadic one, which threads a shared state
and value through `parse_assign_value`, all take the first alternative that succeeds on the original
state.
-/

namespace Noam
open GetResult ValueType Loop Attempt

variable {A B C V W : ValueType} {g g' ga gb gc : Bool} {gs : List Bool} {st : State}

namespace Alternatives

/-- The first alternative that succeeds from `st`, after alternatives that fail from `st`, leaves a
state and a value. -/
inductive FirstSuccess (st : State) : {gs : List Bool} → Alternatives W gs → State × W → Prop
  | here {g : Bool} {V : ValueType} {gs : List Bool} {p : Parser g V} {conv : Conversion V W}
      {ps : Alternatives W gs} {st' : State} {v : V} (h : p.run st = some (some (st', v))) :
      FirstSuccess st (.cons p conv ps) (st', conv.apply v)
  | there {g : Bool} {V : ValueType} {gs : List Bool} {p : Parser g V} {conv : Conversion V W}
      {ps : Alternatives W gs} {x : State × W} (h : p.run st = some none) (hs : FirstSuccess st ps x) :
      FirstSuccess st (.cons p conv ps) x

def AllFail (st : State) : {gs : List Bool} → Alternatives W gs → Prop
  | _, nil => True
  | _, cons p _ ps => p.run st = some none ∧ ps.AllFail st

theorem runFirst_eq_some_iff {gs : List Bool} {ps : Alternatives W gs} {x : State × W} :
    ps.runFirst st = some (some x) ↔ ps.FirstSuccess st x := by
  induction ps with
  | nil => exact ⟨fun h => (by cases h), fun h => (by cases h)⟩
  | cons p conv ps ih =>
    rw [runFirst]
    rcases hp : p.run st with _ | _ | ⟨st', v⟩
    · rw [orElse_none (by simp [map_apply, hp])]
      refine ⟨fun h => (by cases h), fun h => ?_⟩
      cases h with
      | here h => rw [hp] at h; cases h
      | there h _ => rw [hp] at h; cases h
    · rw [orElse_fail (by simp [map_apply, hp]), ih]
      refine ⟨fun h => .there hp h, fun h => ?_⟩
      cases h with
      | here h => rw [hp] at h; cases h
      | there _ h => exact h
    · have hm : Attempt.map conv.apply p.run st = some (some (st', conv.apply v)) := by
        rw [map_apply, hp]; rfl
      rw [orElse_some hm]
      constructor
      · intro h; cases h; exact .here hp
      · intro h
        cases h with
        | here h => rw [hp] at h; cases h; rfl
        | there h _ => rw [hp] at h; cases h

theorem runFirst_eq_fail_iff {gs : List Bool} {ps : Alternatives W gs} :
    ps.runFirst st = some none ↔ ps.AllFail st := by
  induction ps with
  | nil => exact ⟨fun _ => trivial, fun _ => rfl⟩
  | cons p conv ps ih =>
    rw [runFirst, AllFail, ← ih]
    rcases hp : p.run st with _ | _ | ⟨st', v⟩
    · rw [orElse_none (by simp [map_apply, hp])]; simp
    · rw [orElse_fail (by simp [map_apply, hp])]; simp
    · rw [orElse_some (by rw [map_apply, hp]; rfl)]; simp

end Alternatives

/-! ### The overloads -/

/-- Whichever overload is chosen, the outcome is that of the variadic one. -/
theorem run_either_variadic (ps : Alternatives W gs) : (either ps).run = (eitherVariadic ps).run := by
  rw [run_either, eitherVariadic_eq, eitherGood_eq]

/-! ### Laws -/

theorem runFirst_two (a : Parser ga A) (ca : Conversion A W) (b : Parser gb B)
    (cb : Conversion B W) : (Alternatives.cons a ca (.cons b cb .nil)).runFirst =
      orElse (Attempt.map ca.apply a.run) (Attempt.map cb.apply b.run) :=
  congrArg _ (runFirst_singleton b cb)

theorem either_refines_two {a : Parser ga A} {b : Parser gb B} {P : Attempt State A}
    {Q : Attempt State B} (ha : a.Refines P) (hb : b.Refines Q) (ca : Conversion A W)
    (cb : Conversion B W) : (either (.cons a ca (.cons b cb .nil))).Refines
      (orElse (Attempt.map ca.apply P) (Attempt.map cb.apply Q)) := by
  have hps : (Alternatives.cons a ca (.cons b cb .nil)).KeepNonNull :=
    ⟨ha.keepsNonNull, hb.keepsNonNull, trivial⟩
  refine (either_refines hps).trans ?_
  rw [runFirst_two]
  exact rel_orElse (rel_map ha fun v v' hv => by rw [hv]) (rel_map hb fun v v' hv => by rw [hv])

theorem either_refines_three {a : Parser ga A} {b : Parser gb B} {c : Parser gc C}
    (ha : a.KeepsNonNull) (hb : b.KeepsNonNull) (hc : c.KeepsNonNull) (ca : Conversion A W)
    (cb : Conversion B W) (cc : Conversion C W) :
    (either (.cons a ca (.cons b cb (.cons c cc .nil)))).Refines
      (orElse (Attempt.map ca.apply a.run) (orElse (Attempt.map cb.apply b.run)
        (Attempt.map cc.apply c.run))) := by
  have hps : (Alternatives.cons a ca (.cons b cb (.cons c cc .nil))).KeepNonNull :=
    ⟨ha, hb, hc, trivial⟩
  have h := either_refines hps
  rwa [Alternatives.runFirst, runFirst_two] at h

/-- `either` takes the first alternative that succeeds on the original state, in every overload. So
it is associative, and a common first step of two alternatives may be taken before the choice. -/
theorem either_ordered_choice {ps : Alternatives W gs} {a : Parser ga A} {b : Parser gb B}
    {c : Parser gc C} (ca : Conversion A W) (cb : Conversion B W) (cc : Conversion C W)
    (hps : ps.KeepNonNull) (ha : a.KeepsNonNull) (hb : b.KeepsNonNull) (hc : c.KeepsNonNull)
    (hst : st.good = true) :
    (∀ x, (either ps).run st = some (some x) ↔ ps.FirstSuccess st x) ∧
    ((either ps).run st = some none ↔ ps.AllFail st) ∧
    (∀ {gs : List Bool} (qs : Alternatives W gs), (either qs).run = (eitherVariadic qs).run) ∧
    (either (.cons a ca (.cons (either (.cons b cb (.cons c cc .nil))) .same .nil))).run st =
      (either (.cons a ca (.cons b cb (.cons c cc .nil)))).run st ∧
    (either (.cons (either (.cons a ca (.cons b cb .nil))) .same (.cons c cc .nil))).run st =
      (either (.cons a ca (.cons b cb (.cons c cc .nil)))).run st ∧
    (either (.cons (a >>> b) cb (.cons (a >>> c) cc .nil))).run st =
      (a >>> either (.cons b cb (.cons c cc .nil))).run st := by
  have habc := either_refines_three ha hb hc ca cb cc
  have hbc := either_refines_two hb.refines hc.refines cb cc
  refine ⟨fun x => ?_, ?_, run_either_variadic, ?_, ?_, ?_⟩
  · rw [(either_refines hps).run_eq hst]; exact Alternatives.runFirst_eq_some_iff
  · rw [(either_refines hps).run_eq hst]; exact Alternatives.runFirst_eq_fail_iff
  · have h := either_refines_two ha.refines hbc ca .same
    rw [h.run_eq hst, habc.run_eq hst]
    exact congrFun (congrArg _ (map_id _)) st
  · have hab := either_refines_two ha.refines hb.refines ca cb
    have h := either_refines_two hab hc.refines .same cc
    rw [h.run_eq hst, habc.run_eq hst, ← orElse_assoc]
    exact congrFun (congrArg (orElse · _) (map_id _)) st
  · have hab := shiftRight_refines ha.refines hb.refines
    have hac := shiftRight_refines ha.refines hc.refines
    -- the common step succeeds or fails in both alternatives
    have h := either_refines_two hab hac cb cc
    rw [h.run_eq hst, (shiftRight_refines ha.refines hbc).run_eq hst, map_bind, map_bind, bind_orElse]

/-- `parse_bool`, a blank and a constant as alternatives, on a blank. -/
theorem either_ordered_choice_bool :
    let mem := Memory.ofText [ch ' ']
    let a := boolParser mem
    let b := literal mem [.charLiteral (ch ' ')]
    let c := pureParser (V := ValueType.bool) true
    (either (W := ValueType.bool) (.cons a .same (.cons b (.convert fun _ => false)
      (.cons c .same .nil)))).run (State.ofLength 1) = some (some (⟨2, 2⟩, false)) := by
  intro mem a b c
  have ha : a.KeepsNonNull := boolParser_advances.keepsNonNull
  have hb : b.KeepsNonNull := literal_keepsNonNull mem _
  have hc : c.KeepsNonNull := (pureParser_advances _).keepsNonNull
  have hps : (Alternatives.cons (W := ValueType.bool) a .same (.cons b (.convert fun _ => false)
      (.cons c .same .nil))).KeepNonNull := ⟨ha, hb, hc, trivial⟩
  have h := either_ordered_choice .same (.convert fun _ => false) .same hps ha hb hc
    (show (State.ofLength 1).good = true from rfl)
  exact (h.1 _).2 (.there rfl (.here rfl))

end Noam
