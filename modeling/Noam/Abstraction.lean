import Noam.Combinators

/-!
# What the combinators are as attempts

Every combinator but `join`, `lookahead` and a trivial `either` builds its result afresh, and is
`Parser.ofAttempt` of the operation of `Noam.Attempt` it stands for, on all inputs. So what holds
of `bind`, `orElse` and `iterate` can be carried over to the source's functions.
-/

namespace Noam
open GetResult ValueType Loop Attempt

variable {U V W T : ValueType} {g g' : Bool} {gs : List Bool} {Vs : List ValueType} {β : Type}

/-- All parsers of a list, one after the other. -/
def Parsers.runAll : {gs : List Bool} → {Vs : List ValueType} → Parsers gs Vs →
    Attempt State (ValuesOf Vs)
  | _, _, nil => Attempt.pure ⟨⟩
  | _, _, cons p ps => bind p.run fun v => Attempt.map (fun vs => (v, vs)) ps.runAll

/-- The first alternative that succeeds. -/
def Alternatives.runFirst : {gs : List Bool} → Alternatives W gs → Attempt State W
  | _, nil => Attempt.fail
  | _, cons p conv ps => orElse (Attempt.map conv.apply p.run) ps.runFirst

namespace Parser
variable {p : Parser g V} {st st' : State} {v : V} {yes : State → V → Option β} {no : Option β}

theorem ifParse_none (h : p.run st = none) : p.ifParse st yes no = none := by
  rw [ifParse_eq, h]; rfl

theorem ifParse_fail (h : p.run st = some none) : p.ifParse st yes no = no := by
  rw [ifParse_eq, h]; rfl

theorem ifParse_some (h : p.run st = some (some (st', v))) : p.ifParse st yes no = yes st' v := by
  rw [ifParse_eq, h]; rfl

theorem parse_ofAttempt (A : Attempt State V) (st : State) :
    (ofAttempt g A).parse st = (A st).bind ofOutcome := rfl

theorem run_pure (p : Parser true V) (st : State) :
    p.run st = (p.parse st).map fun r : PureResult V => some (r.state, r.value) := rfl

end Parser

theorem map_eq (func : V → W) (p : Parser g V) :
    map func p = .ofAttempt g (Attempt.map func p.run) := by
  refine Parser.ext fun st => ?_
  rw [Parser.parse_ofAttempt, map_apply]
  cases g
  · rcases h : p.run st with _ | _ | ⟨st', v⟩
    · exact Parser.ifParse_none h
    · exact Parser.ifParse_fail h
    · exact Parser.ifParse_some h
  · rw [Parser.run_pure]
    rcases h : p.parse st with _ | r <;> simp only [map, h] <;> rfl

theorem shiftRight_eq (p : Parser g V) (q : Parser g' W) :
    shiftRight p q = .ofAttempt false (bind p.run fun _ => q.run) := by
  refine Parser.ext fun st => ?_
  rw [Parser.parse_ofAttempt]
  rcases h : p.run st with _ | _ | ⟨st₁, v⟩
  · rw [bind_none h]; exact Parser.ifParse_none h
  · rw [bind_fail h]; exact Parser.ifParse_fail h
  rw [bind_some h]
  refine (Parser.ifParse_some h).trans ?_
  rcases h' : q.run st₁ with _ | _ | ⟨st₂, w⟩
  · exact Parser.ifParse_none h'
  · exact Parser.ifParse_fail h'
  · exact Parser.ifParse_some h'

theorem enclose_eq {g₁ g₂ g₃ : Bool} (pre : Parser g₁ U) (par : Parser g₂ V) (post : Parser g₃ W) :
    enclose pre par post = .ofAttempt false
      (bind pre.run fun _ => bind par.run fun v => Attempt.map (fun _ => v) post.run) := by
  refine Parser.ext fun st => ?_
  rw [Parser.parse_ofAttempt]
  rcases h : pre.run st with _ | _ | ⟨st₁, u⟩
  · rw [bind_none h]; exact Parser.ifParse_none h
  · rw [bind_fail h]; exact Parser.ifParse_fail h
  rw [bind_some h]
  refine (Parser.ifParse_some h).trans ?_
  rcases h' : par.run st₁ with _ | _ | ⟨st₂, v⟩
  · rw [bind_none h']; exact Parser.ifParse_none h'
  · rw [bind_fail h']; exact Parser.ifParse_fail h'
  rw [bind_some h', map_apply]
  refine (Parser.ifParse_some h').trans ?_
  rcases h'' : post.run st₂ with _ | _ | ⟨st₃, w⟩
  · exact Parser.ifParse_none h''
  · exact Parser.ifParse_fail h''
  · exact Parser.ifParse_some h''

/-! ### Steps on a state variable -/

theorem updateState_eq (r : GetResult V g) (st : State) :
    updateState r st = match r.outcome with
      | some (st', _) => (true, st')
      | none => (false, st) := by
  rcases h : r.outcome with _ | ⟨st', v⟩
  · have hb : r.toBool = false := by rw [toBool_eq, h]; rfl
    cases g
    · simp [updateState, hb]
    · cases hb
  · obtain ⟨hb, rfl, -⟩ := outcome_eq_some h
    cases g
    · simp [updateState, hb]
    · rfl

theorem parseAssign_eq (st : State) (p : Parser g V) :
    parseAssign st p = (p.parse st).map fun r => match r.outcome with
      | some (st', _) => (true, st', r)
      | none => (false, st, r) := by
  rcases hp : p.parse st with _ | r
  · cases g <;> simp [parseAssign, hp]
  rcases h : r.outcome with _ | ⟨st', v⟩
  · have hb : r.toBool = false := by rw [toBool_eq, h]; rfl
    cases g
    · simp [parseAssign, hp, hb, h]
    · cases hb
  · obtain ⟨hb, rfl, -⟩ := outcome_eq_some h
    cases g <;> simp [parseAssign, hp, hb, h]

theorem parseAssignValue_eq (st : State) (p : Parser g V) (conv : Conversion V W) (val : Box W) :
    parseAssignValue st p conv val = (p.run st).map fun
      | some (st', v) => (true, st', some (conv.apply v))
      | none => (false, st, val) := by
  rcases hp : p.parse st with _ | r
  · cases g <;> simp [parseAssignValue, Parser.run, hp]
  rcases h : r.outcome with _ | ⟨st', v⟩
  · have hb : r.toBool = false := by rw [toBool_eq, h]; rfl
    cases g
    · simp [parseAssignValue, Parser.run, hp, hb, h]
    · cases hb
  · obtain ⟨hb, rfl, hv⟩ := outcome_eq_some h
    cases g <;> simp [parseAssignValue, Parser.run, hp, hb, h, hv]

namespace Parsers

theorem neverFails_runAll : {gs : List Bool} → {Vs : List ValueType} → (ps : Parsers gs Vs) →
    gs.all id = true → NeverFails ps.runAll
  | _, _, nil, _ => neverFails_pure _
  | true :: _, _, cons p ps, h =>
    NeverFails.bind p.neverFails fun _ => (neverFails_runAll ps (by simpa using h)).map _
  | false :: _, _, cons _ _, h => by cases h

theorem keeps_runAll : {gs : List Bool} → {Vs : List ValueType} → {ps : Parsers gs Vs} →
    ps.KeepNonNull → Keeps (·.good = true) (·.good = true) ps.runAll
  | _, _, nil, _ => fun _ _ _ hs h => by cases h; exact hs
  | _, _, cons _ _, h => Keeps.bind h.1 fun _ => (keeps_runAll h.2).map _

theorem updateAll_eq {gs : List Bool} {Vs : List ValueType} (ps : Parsers gs Vs)
    (h : gs.all id = true) (st : State) :
    ps.updateAll st = (ps.runAll st).bind (Option.map Prod.fst) := by
  induction ps generalizing st with
  | nil => rfl
  | @cons g V gs Vs p ps ih =>
    obtain ⟨rfl, h⟩ : g = true ∧ gs.all id = true := by simpa using h
    rw [updateAll, runAll]
    rcases hp : p.parse st with _ | r
    · rw [bind_none (by simp [Parser.run, hp])]; rfl
    · rw [bind_some (Parser.run_of_parse hp), map_apply]
      show ps.updateAll r.getState = _
      rw [ih h]
      rcases ps.runAll r.getState with _ | _ | x <;> rfl

theorem updateWhileGood_eq {gs : List Bool} {Vs : List ValueType} (ps : Parsers gs Vs)
    (st : State) :
    (ps.updateWhileGood st).map (fun x => if x.1 then some x.2 else none) =
      (ps.runAll st).map (Option.map Prod.fst) := by
  induction ps generalizing st with
  | nil => rfl
  | cons p ps ih =>
    rw [updateWhileGood, runAll]
    simp only [updateState_eq]
    rcases hp : p.parse st with _ | r
    · rw [bind_none (by simp [Parser.run, hp])]; rfl
    have hr := Parser.run_of_parse hp
    rcases ho : r.outcome with _ | ⟨st', v⟩ <;> rw [ho] at hr
    · rw [bind_fail hr]; simp [ho]
    · rw [bind_some hr, map_apply]
      simp only [Option.bind_eq_bind, Option.bind_some, ho, if_true, ih, Option.map_map]
      rcases ps.runAll st' with _ | _ | x <;> rfl

theorem assignAll_eq {gs : List Bool} {Vs : List ValueType} (ps : Parsers gs Vs) (st : State) :
    ps.assignAll st = ps.runAll st := by
  induction ps generalizing st with
  | nil => rfl
  | cons p ps ih =>
    rw [assignAll, runAll, parseAssign_eq]
    rcases hp : p.parse st with _ | r
    · rw [bind_none (by simp [Parser.run, hp])]; rfl
    have hr := Parser.run_of_parse hp
    rcases ho : r.outcome with _ | ⟨st', v⟩ <;> rw [ho] at hr
    · rw [bind_fail hr]; simp [ho]
    · have hv := (outcome_eq_some ho).2.2
      rw [bind_some hr, map_apply]
      simp [ho, hv, ih]
      rcases ps.runAll st' with _ | _ | x <;> rfl

end Parsers

namespace Alternatives

theorem neverFails_runFirst : {gs : List Bool} → (ps : Alternatives W gs) → gs.any id = true →
    NeverFails ps.runFirst
  | _, nil, h => by cases h
  | true :: _, cons p _ _, _ => NeverFails.orElse_left (p.neverFails.map _)
  | false :: _, cons _ _ ps, h => NeverFails.orElse_right (neverFails_runFirst ps (by simpa using h))

theorem keeps_runFirst : {gs : List Bool} → {ps : Alternatives W gs} → ps.KeepNonNull →
    Keeps (·.good = true) (·.good = true) ps.runFirst
  | _, nil, _ => fun _ _ _ _ h => by cases h
  | _, cons _ _ _, h => Keeps.orElse (h.1.map _) (keeps_runFirst h.2)

theorem assignFirst_eq {gs : List Bool} (ps : Alternatives W gs) (st : State) (val : Box W) :
    ps.assignFirst st val = (ps.runFirst st).map fun
      | some (st', w) => (true, st', some w)
      | none => (false, st, val) := by
  induction ps with
  | nil => rfl
  | cons p conv ps ih =>
    rw [assignFirst, runFirst, parseAssignValue_eq]
    rcases h : p.run st with _ | _ | ⟨st', v⟩
    · rw [orElse_none (by simp [map_apply, h])]; rfl
    · rw [orElse_fail (by simp [map_apply, h])]; exact ih
    · rw [orElse_some (by rw [map_apply, h]; rfl)]; rfl

end Alternatives

/-! ### `match`, `either`, `make` -/

theorem match_eq (ps : Parsers gs Vs) :
    match_ ps = .ofAttempt (gs.all id) (Attempt.map (fun _ => ()) ps.runAll) := by
  refine Parser.ext fun st => ?_
  rw [Parser.parse_ofAttempt, map_apply]
  have hu := fun h => ps.updateAll_eq h st
  have hw := ps.updateWhileGood_eq st
  have hn := ps.neverFails_runAll
  unfold match_
  generalize gs.all id = good at *
  cases good
  · simp only [ifConstexpr]
    rcases h : ps.updateWhileGood st with _ | ⟨ok, st'⟩ <;> rw [h] at hw
    · rcases hr : ps.runAll st with _ | x <;> rw [hr] at hw
      · rfl
      · cases hw
    · rcases hr : ps.runAll st with _ | _ | x <;> rw [hr] at hw <;> cases ok <;> cases hw <;> rfl
  · simp only [ifConstexpr]
    rw [hu rfl]
    rcases hr : ps.runAll st with _ | _ | x
    · rfl
    · exact absurd hr (hn rfl st)
    · rfl

theorem makeVariadic_eq (construct : ValuesOf Vs → T) (ps : Parsers gs Vs) :
    makeVariadic construct ps = .ofAttempt false (Attempt.map construct ps.runAll) := by
  refine Parser.ext fun st => ?_
  rw [Parser.parse_ofAttempt, map_apply]
  show (ps.assignAll st).bind _ = _
  rw [ps.assignAll_eq]
  rcases ps.runAll st with _ | _ | ⟨st', vs⟩ <;> rfl

theorem make₁_eq (construct : V → T) (p : Parser g V) :
    make₁ construct p = .ofAttempt g (Attempt.map construct p.run) := by
  rw [← map_eq]; cases g <;> rfl

/-- Every overload of `make` runs its parsers one after the other. -/
theorem make_eq : {gs : List Bool} → {Vs : List ValueType} → (construct : ValuesOf Vs → T) →
    (ps : Parsers gs Vs) →
    make construct ps = .ofAttempt (makeGood gs) (Attempt.map construct ps.runAll)
  | _, _, _, .nil => rfl
  | _, _, construct, .cons p .nil => by
    have h : Attempt.map construct (Parsers.cons p .nil).runAll =
        Attempt.map (fun v => construct (v, ())) p.run := map_bind ..
    rw [h]; exact make₁_eq (fun v => construct (v, ())) p
  | _, _, construct, .cons p (.cons q ps) => makeVariadic_eq construct _

theorem neverFails_make : {gs : List Bool} → {Vs : List ValueType} → (construct : ValuesOf Vs → T) →
    (ps : Parsers gs Vs) → makeGood gs = true → NeverFails (Attempt.map construct ps.runAll)
  | _, _, _, .nil, _ => (neverFails_pure _).map _
  | [g], _, _, .cons p .nil, h =>
    have hg : g = true := h
    (Parsers.neverFails_runAll (.cons p .nil) (by simp [hg])).map _
  | _, _, _, .cons _ (.cons _ _), h => by cases h

theorem eitherEnd_eq (good : Bool) (st : State) :
    eitherEnd good W = (Attempt.fail st).bind (ofOutcome (V := W) (g := good)) := by
  cases good <;> rfl

/-- One `if` of a hand-written `either`. -/
theorem ifParse_orElse (p : Parser g V) (conv : Conversion V W) (B : Attempt State W) (st : State) :
    p.ifParse st (fun st v => return (.of st (conv.apply v) : GetResult W g'))
        ((B st).bind ofOutcome) =
      (orElse (Attempt.map conv.apply p.run) B st).bind ofOutcome := by
  rcases h : p.run st with _ | _ | ⟨st', v⟩
  · rw [Parser.ifParse_none h, orElse_none (by simp [map_apply, h])]; rfl
  · rw [Parser.ifParse_fail h, orElse_fail (by simp [map_apply, h])]
  · rw [Parser.ifParse_some h, orElse_some (by rw [map_apply, h]; rfl)]
    exact (ofOutcome_some _ _).symm

theorem either₂_eq {ga gb : Bool} (pa : Parser ga U) (ca : Conversion U W) (pb : Parser gb V)
    (cb : Conversion V W) : either₂ pa ca pb cb =
      .ofAttempt (ga || gb) (Alternatives.cons pa ca (.cons pb cb .nil)).runFirst := by
  refine Parser.ext fun st => ?_
  unfold either₂
  simp only [eitherEnd_eq _ st, ifParse_orElse, Parser.parse_ofAttempt, Alternatives.runFirst]

theorem either₃_eq {ga gb gc : Bool} {A B C : ValueType} (pa : Parser ga A) (ca : Conversion A W)
    (pb : Parser gb B) (cb : Conversion B W) (pc : Parser gc C) (cc : Conversion C W) :
    either₃ pa ca pb cb pc cc = .ofAttempt (ga || gb || gc)
      (Alternatives.cons pa ca (.cons pb cb (.cons pc cc .nil))).runFirst := by
  refine Parser.ext fun st => ?_
  unfold either₃
  simp only [eitherEnd_eq _ st, ifParse_orElse, Parser.parse_ofAttempt, Alternatives.runFirst]

theorem either₄_eq {ga gb gc gd : Bool} {A B C D : ValueType} (pa : Parser ga A)
    (ca : Conversion A W) (pb : Parser gb B) (cb : Conversion B W) (pc : Parser gc C)
    (cc : Conversion C W) (pd : Parser gd D) (cd : Conversion D W) :
    either₄ pa ca pb cb pc cc pd cd = .ofAttempt (ga || gb || gc || gd)
      (Alternatives.cons pa ca (.cons pb cb (.cons pc cc (.cons pd cd .nil)))).runFirst := by
  refine Parser.ext fun st => ?_
  unfold either₄
  simp only [eitherEnd_eq _ st, ifParse_orElse, Parser.parse_ofAttempt, Alternatives.runFirst]

/-- The shared state and value variable of the variadic `either` do not show. -/
theorem eitherVariadic_eq (ps : Alternatives W gs) :
    eitherVariadic ps = .ofAttempt (gs.any id) ps.runFirst := by
  refine Parser.ext fun st => ?_
  rw [Parser.parse_ofAttempt]
  have hn := ps.neverFails_runFirst
  unfold eitherVariadic
  simp only [ps.assignFirst_eq]
  generalize gs.any id = good at *
  rcases h : ps.runFirst st with _ | _ | ⟨st', w⟩ <;> cases good
  · rfl
  · rfl
  · rfl
  · exact absurd h (hn rfl st)
  · rfl
  · rfl

theorem eitherGood_eq : (gs : List Bool) → eitherGood gs = gs.any id
  | [] => rfl
  | [g] => by simp [eitherGood]
  | [_, _] => by simp [eitherGood]
  | [_, _, _] => by simp [eitherGood, Bool.or_assoc]
  | [_, _, _, _] => by simp [eitherGood, Bool.or_assoc]
  | _ :: _ :: _ :: _ :: _ :: _ => rfl

/-- `either` of two or more alternatives, in the overload chosen for them. -/
theorem either_eq {ga gb : Bool} (pa : Parser ga U) (ca : Conversion U W) (pb : Parser gb V)
    (cb : Conversion V W) : (ps : Alternatives W gs) →
    either (.cons pa ca (.cons pb cb ps)) = .ofAttempt (eitherGood (ga :: gb :: gs))
      (Alternatives.cons pa ca (.cons pb cb ps)).runFirst
  | .nil => either₂_eq pa ca pb cb
  | .cons pc cc .nil => either₃_eq pa ca pb cb pc cc
  | .cons pc cc (.cons pd cd .nil) => either₄_eq pa ca pb cb pc cc pd cd
  | .cons _ _ (.cons _ _ (.cons _ _ _)) => eitherVariadic_eq _

theorem runFirst_singleton (p : Parser g V) (conv : Conversion V W) :
    (Alternatives.cons p conv .nil).runFirst = Attempt.map conv.apply p.run :=
  orElse_fail_right _

theorem run_either₁ (p : Parser g V) (conv : Conversion V W) :
    (either₁ p conv).run = (Parser.ofAttempt g (Alternatives.cons p conv .nil).runFirst).run := by
  rw [runFirst_singleton]
  cases conv with
  | same =>
    have h : Attempt.map Conversion.same.apply p.run = p.run := map_id p.run
    rw [h, run_ofAttempt_run]; rfl
  | convert f => exact congrArg Parser.run (map_eq f p)

/-- Every overload of `either` has the outcome of the first alternative that succeeds. -/
theorem run_either : {gs : List Bool} → (ps : Alternatives W gs) →
    (either ps).run = (Parser.ofAttempt (eitherGood gs) ps.runFirst).run
  | _, .nil => rfl
  | _, .cons p conv .nil => run_either₁ p conv
  | _, .cons pa ca (.cons pb cb ps) => congrArg Parser.run (either_eq pa ca pb cb ps)

theorem neverFails_either (ps : Alternatives W gs) (h : eitherGood gs = true) :
    NeverFails ps.runFirst := ps.neverFails_runFirst (eitherGood_eq gs ▸ h)

/-! ### Tests -/

/-- A test of `p` that is told what to return on failure. -/
theorem ifParse_test (p : Parser g V) (k : V → T) (b : T) (st : State) :
    p.ifParse st (fun st v => return PureResult.mk st (k v)) (return PureResult.mk st b) =
      (orElse (Attempt.map k p.run) (Attempt.pure b) st).bind (ofOutcome (V := T) (g := true)) := by
  rcases h : p.run st with _ | _ | ⟨st', v⟩
  · rw [Parser.ifParse_none h, orElse_none (by simp [map_apply, h])]; rfl
  · rw [Parser.ifParse_fail h, orElse_fail (by simp [map_apply, h])]; rfl
  · rw [Parser.ifParse_some h, orElse_some (by rw [map_apply, h]; rfl)]; rfl

theorem testThen_eq (p : Parser g V) (func : V → Unit) :
    testThen p func =
      .ofAttempt true (orElse (Attempt.map (fun _ => true) p.run) (Attempt.pure false)) :=
  Parser.ext (ifParse_test p _ _)

theorem tryParse_eq (p : Parser g V) :
    tryParse p = .ofAttempt true (orElse (Attempt.map toOptional p.run) (Attempt.pure nullopt)) :=
  Parser.ext (ifParse_test p _ _)

theorem tryLookahead_eq (p : Parser g V) :
    tryLookahead p =
      .ofAttempt true (Attempt.map (fun o => (o.map toOptional).getD nullopt) (peek p.run)) := by
  refine Parser.ext fun st => ?_
  rw [Parser.parse_ofAttempt, map_apply]
  rcases h : p.run st with _ | _ | ⟨st', v⟩
  · refine (Parser.ifParse_none h).trans ?_
    simp [peek, h]
  · refine (Parser.ifParse_fail h).trans ?_
    simp [peek, h]; rfl
  · refine (Parser.ifParse_some h).trans ?_
    simp [peek, h]; rfl

/-! ### Repetition -/

theorem foldRound_eq (rest : Parser g W) (op : V → W → V) :
    foldRound rest op = iterateRound fun a => Attempt.map (op a) rest.run := by
  funext ⟨st, a⟩
  unfold foldRound iterateRound
  simp only [map_apply]
  rcases h : rest.run st with _ | _ | ⟨st', w⟩
  · exact Parser.ifParse_none h
  · exact Parser.ifParse_fail h
  · exact Parser.ifParse_some h

theorem separatedRound_eq {A : Type} (sep : Parser g U) (elem : Parser g' V) (push : A → V → A) :
    separatedRound sep elem push =
      iterateRound fun a => Attempt.map (push a) (bind sep.run fun _ => elem.run) := by
  funext ⟨st, a⟩
  unfold separatedRound iterateRound
  simp only [map_apply]
  rcases h : sep.run st with _ | _ | ⟨st₁, u⟩
  · rw [bind_none h]; exact Parser.ifParse_none h
  · rw [bind_fail h]; exact Parser.ifParse_fail h
  rw [bind_some h]
  refine (Parser.ifParse_some h).trans ?_
  rcases h' : elem.run st₁ with _ | _ | ⟨st₂, v⟩
  · exact Parser.ifParse_none h'
  · exact Parser.ifParse_fail h'
  · exact Parser.ifParse_some h'

theorem foldLeft_eq (initial : Parser g V) (rest : Parser g' W) (op : V → W → V) :
    foldLeft initial rest op = .ofAttempt false
      (bind initial.run (iterate fun a => Attempt.map (op a) rest.run)) := by
  refine Parser.ext fun st => ?_
  rw [Parser.parse_ofAttempt]
  unfold foldLeft
  rw [foldRound_eq]
  rcases h : initial.run st with _ | _ | ⟨st', v⟩
  · rw [bind_none h]; exact Parser.ifParse_none h
  · rw [bind_fail h]; exact Parser.ifParse_fail h
  rw [bind_some h]
  refine (Parser.ifParse_some h).trans ?_
  unfold iterate
  rcases loop (iterateRound fun a => Attempt.map (op a) rest.run) (st', v) with _ | x <;> rfl

theorem sequence_eq (elem : Parser g V) (sep : Parser g' U) :
    sequence elem sep = .ofAttempt true (sepBy sep.run elem.run pushBack []) := by
  refine Parser.ext fun st => ?_
  rw [Parser.parse_ofAttempt]
  unfold sequence sepBy separated
  rw [separatedRound_eq]
  rcases h : elem.run st with _ | _ | ⟨st', v⟩
  · rw [orElse_none (bind_none h)]; exact Parser.ifParse_none h
  · rw [orElse_fail (bind_fail h)]; exact Parser.ifParse_fail h
  refine (Parser.ifParse_some h).trans ?_
  unfold orElse
  rw [bind_some h]
  unfold iterate
  show _ = ((loop _ (st', [v])).bind _ >>= _).bind _
  rcases loop (iterateRound fun a => Attempt.map (pushBack a) (bind sep.run fun _ => elem.run))
    (st', [v]) with _ | x <;> rfl

theorem sequenceSep_eq (mem : Memory) (sep : AnyLiteral) (elem : Parser g V) :
    sequenceSep mem sep elem = sequence elem (separator mem [sep]) := rfl

/-- The end of the bracketed `sequence` and `parse_map`. -/
theorem close_eq (close : Parser g empty) (st : State) (value : T) :
    (do
      let (ok, st) := updateState (← close.parse st) st
      if ok then return .of st value else return .failed : Option (GetResult T false)) =
    (Attempt.map (fun _ => value) close.run st).bind ofOutcome := by
  rw [map_apply]
  simp only [updateState_eq]
  rcases hc : close.parse st with _ | r
  · simp [Parser.run, hc]
  · rw [Parser.run_of_parse hc]
    rcases hr : r.outcome with _ | ⟨st', w⟩ <;> simp [hr, ofOutcome]

/-- The elements between the brackets. -/
theorem sepBy_apply {A : Type} (sep : Parser g U) (elem : Parser g' V) (push : A → V → A) (a : A)
    (st : State) :
    sepBy sep.run elem.run push a st = (elem.ifParse st
      (fun st first => loop (separatedRound sep elem push) (st, push a first))
      (return (st, a))).map some := by
  rw [separatedRound_eq]
  unfold sepBy separated
  rcases h : elem.run st with _ | _ | ⟨st', v⟩
  · rw [Parser.ifParse_none h, orElse_none (bind_none h)]; rfl
  · rw [Parser.ifParse_fail h, orElse_fail (bind_fail h)]; rfl
  · rw [Parser.ifParse_some h]
    rcases hl : loop (iterateRound fun a => Attempt.map (push a) (bind sep.run fun _ => elem.run))
        (st', push a v) with _ | x
    · have hi : bind elem.run (fun v => iterate (fun a => Attempt.map (push a)
          (bind sep.run fun _ => elem.run)) (push a v)) st = none := by
        rw [bind_some h]; unfold iterate; rw [hl]; rfl
      rw [orElse_none hi]; rfl
    · have hi : bind elem.run (fun v => iterate (fun a => Attempt.map (push a)
          (bind sep.run fun _ => elem.run)) (push a v)) st = some (some x) := by
        rw [bind_some h]; unfold iterate; rw [hl]; rfl
      rw [orElse_some hi]; rfl

/-- The body shared by the bracketed `sequence` and `parse_map`. -/
theorem bracketed_eq {g₁ g₂ : Bool} (open_ : Parser g₁ empty) (close : Parser g₂ empty)
    (sep : Parser g U) (elem : Parser g' V) (push : T → V → T) (a : T) (st : State) :
    (do
      let (ok, st) := updateState (← open_.parse st) st
      if !ok then return .failed
      let (st, value) ← elem.ifParse st
        (fun st first => loop (separatedRound sep elem push) (st, push a first))
        (return (st, a))
      let (ok, st) := updateState (← close.parse st) st
      if ok then return .of st value else return .failed : Option (GetResult T false)) =
    (bind open_.run (fun _ => bind (sepBy sep.run elem.run push a) fun value =>
      Attempt.map (fun _ => value) close.run) st).bind ofOutcome := by
  rcases ho : open_.parse st with _ | r
  · rw [bind_none (by simp [Parser.run, ho])]; rfl
  have hr := Parser.run_of_parse ho
  have hu := updateState_eq r st
  rcases hro : r.outcome with _ | ⟨st₁, u⟩ <;> rw [hro] at hr hu
  · rw [bind_fail hr]
    simp [hu, ofOutcome]
  rw [bind_some hr]
  have hs := sepBy_apply sep elem push a st₁
  rcases hi : elem.ifParse st₁ (fun st first => loop (separatedRound sep elem push) (st, push a first))
    (return (st₁, a)) with _ | ⟨st₂, value⟩ <;> rw [hi] at hs
  · rw [bind_none hs]
    simp [hu, ← Option.pure_def, hi]
  · rw [bind_some hs, ← close_eq]
    simp [hu, ← Option.pure_def, hi]; rfl

theorem sequenceEnclosed_eq (mem : Memory) (opening sep closing : AnyLiteral) (elem : Parser g V) :
    sequenceEnclosed mem opening sep closing elem = .ofAttempt false
      (bind (openParser mem opening).run fun _ =>
        bind (sepBy (separator mem [sep]).run elem.run pushBack []) fun value =>
          Attempt.map (fun _ => value) (closeParser mem closing).run) :=
  Parser.ext (bracketed_eq (T := vector V) _ _ _ _ pushBack [])

theorem parseMap_eq (mem : Memory) (M : Type) [EmplaceMap M V W]
    (opening elemSep keyValueSep closing : AnyLiteral) (key : Parser g V) (val : Parser g' W) :
    parseMap mem M opening elemSep keyValueSep closing key val = .ofAttempt false
      (bind (openParser mem opening).run fun _ =>
        bind (sepBy (separator mem [elemSep]).run (makePair mem keyValueSep key val).run
          emplaceEntry (EmplaceMap.empty V W)) fun value =>
          Attempt.map (fun _ => value) (closeParser mem closing).run) := by
  refine Parser.ext fun st => ?_
  unfold parseMap
  exact bracketed_eq (V := pair V W) (T := mapType M V W) (openParser mem opening)
    (closeParser mem closing) (separator mem [elemSep]) (makePair mem keyValueSep key val)
    (emplaceEntry (V := V) (W := W)) (EmplaceMap.empty V W) st

/-! ### `join` -/

theorem run_joinLast (m : Parser false empty) (p : Parser g V) :
    (joinLast m p).run = bind m.run fun _ => p.toFallible.run := by
  funext st
  have hj : (joinLast m p).run st = ((m.ifParse st (fun st _ => do return (← p.parse st).toResult)
      (return .failed) : Option (GetResult V false)).map outcome) := rfl
  rw [hj]
  rcases h : m.run st with _ | _ | ⟨st₁, u⟩
  · rw [bind_none h, Parser.ifParse_none h]; rfl
  · rw [bind_fail h, Parser.ifParse_fail h]
    exact congrArg some outcome_failed
  · rw [bind_some h, Parser.ifParse_some h]
    show _ = ((p.parse st₁).map GetResult.toResult).map outcome
    rcases p.parse st₁ with _ | r <;> rfl

/-- `join` on states where the match of its first parsers leaves a non-null state. -/
theorem joinLast_run {m : Parser g empty} {p : Parser g' V} {st : State}
    (hm : ∀ st' v, m.run st = some (some (st', v)) → st'.good = true)
    (hp : p.KeepsNonNull) :
    (joinLast m p).run st = bind m.run (fun _ => p.run) st := by
  cases g
  · rw [run_joinLast]
    rcases h : m.run st with _ | _ | ⟨st₁, u⟩
    · rw [bind_none h, bind_none h]
    · rw [bind_fail h, bind_fail h]
    · rw [bind_some h, bind_some h, run_toFallible]
      rcases hq : p.run st₁ with _ | _ | ⟨st', v⟩
      · rfl
      · rfl
      · exact settle_of_good (hp st₁ st' v (hm st₁ u h) hq) v
  · have hj : (joinLast m p).run st = (m.parse st).bind fun r => p.run r.getState := by
      show Option.map _ (Option.bind _ _) = _
      rcases hm : m.parse st with _ | r <;> rfl
    rw [hj]
    rcases hq : m.parse st with _ | r
    · rw [bind_none (by simp [Parser.run, hq])]; rfl
    · rw [bind_some (Parser.run_of_parse hq)]; rfl

theorem joinLast_run_fallible (m : Parser false empty) (p : Parser false V) :
    (joinLast m p).run = bind m.run fun _ => p.run := by
  rw [run_joinLast, toFallible_of_fallible]

/-! ### `recurse` -/

theorem recurseWithin_eq (func : Parser false T → Parser g T) (depth : Nat) :
    (⟨recurseWithin func depth⟩ : Parser false T) = recurseConstantWithin func depth := by
  induction depth with
  | zero => rfl
  | succ depth ih =>
    refine Parser.ext fun st => ?_
    show ((func ⟨recurseWithin func depth⟩).parse st).bind _ = _
    rw [ih]; rfl

/-- The two implementations of `recurse` are one parser. -/
theorem recurse_eq (func : Parser false T → Parser g T) : recurse func = recurseConstant func := by
  refine Parser.ext fun st => ?_
  have h : ∀ depth, recurseWithin func depth st = (recurseConstantWithin func depth).parse st :=
    fun depth => by rw [← recurseWithin_eq]
  show search (fun depth => recurseWithin func depth st) = _
  simp only [h]; rfl

end Noam
