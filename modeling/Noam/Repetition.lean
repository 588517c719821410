import Noam.Refinement
import Noam.StdMap

/-!
# Repetition with separators

The three `sequence`s, `fold_left` and `parse_map` contain five copies of one loop. All of them push the
values of the greedy list of elements onto something, and stop in the state after the last element.
-/

namespace Noam
open GetResult ValueType Loop Attempt

variable {U V W T : ValueType} {g g' : Bool} {mem : Memory} {st st' : State}

theorem foldl_pushBack (vs ws : List V) : ws.foldl pushBack vs = vs ++ ws := by
  induction ws generalizing vs with
  | nil => simp
  | cons w ws ih => rw [List.foldl_cons, ih, pushBack, List.append_assoc]; rfl

/-- The outcome of a `sequence` is the greedy list of elements. -/
theorem sepBy_pushBack_iff {sep : Attempt State U} {elem : Attempt State V} {vs : List V} :
    sepBy sep elem pushBack [] st = some (some (st', vs)) ↔ Elements sep elem st vs st' := by
  rw [sepBy_eq_some_iff]
  constructor
  · rintro ⟨ws, h, rfl⟩; rwa [foldl_pushBack]
  · intro h; exact ⟨vs, h, (foldl_pushBack [] vs).symm⟩

theorem bracketed_eq_some_iff {X : Type} {opening sep closing : AnyLiteral} {elem : Attempt State V}
    {push : X → V → X} {x y : X} :
    bracketed mem opening sep closing elem push x st = some (some (st', y)) ↔
      ∃ st₁ st₂, (openParser mem opening).run st = some (some (st₁, ())) ∧
        sepBy (separator mem [sep]).run elem push x st₁ = some (some (st₂, y)) ∧
        (closeParser mem closing).run st₂ = some (some (st', ())) := by
  unfold bracketed
  constructor
  · intro h
    obtain ⟨st₁, _, ho, h⟩ := bind_eq_some h
    obtain ⟨st₂, z, hs, h⟩ := bind_eq_some h
    obtain ⟨st₃, _, hc, h⟩ := bind_eq_some h
    cases h
    exact ⟨st₁, st₂, ho, hs, hc⟩
  · rintro ⟨st₁, st₂, ho, hs, hc⟩
    rw [bind_some ho, bind_some hs, map_apply, hc]; rfl

/-- A sequence whose first element succeeds is the fold of the rounds after it. -/
theorem sequence_eq_foldLeft {elem : Parser g V} {sep : Parser g' U} (he : elem.KeepsNonNull)
    (hs : sep.KeepsNonNull) (hst : st.good = true) {x : State × V} (hx : elem.run st = some (some x)) :
    (sequence elem sep).run st =
      (foldLeft (map (W := vector V) (fun v => [v]) elem) (sep >>> elem) pushBack).run st := by
  have hfold := foldLeft_refines (V := vector V) pushBack
    (map_refines (W := vector V) (fun v => [v]) he.refines) (shiftRight_refines hs.refines he.refines)
  rw [(sequence_refines he.refines hs.refines).run_eq hst, hfold.run_eq hst]
  unfold sepBy separated
  have hb := bind_some (k := fun v : V => iterate (fun vs => Attempt.map (pushBack vs)
    (bind sep.run fun _ => elem.run)) (pushBack [] v)) hx
  rw [orElse_of_ne_fail (by rw [hb]; exact neverFails_iterate _ _ _), hb, bind_map, bind_some hx]
  rfl

theorem sequenceEnclosed_iff {elem : Parser g V} {opening sep closing : AnyLiteral} {vs : List V}
    (he : elem.KeepsNonNull) (hst : st.good = true) :
    (sequenceEnclosed mem opening sep closing elem).run st = some (some (st', vs)) ↔
      ∃ st₁ st₂, (openParser mem opening).run st = some (some (st₁, ())) ∧
        Elements (separator mem [sep]).run elem.run st₁ vs st₂ ∧
        (closeParser mem closing).run st₂ = some (some (st', ())) := by
  rw [(sequenceEnclosed_refines mem opening sep closing he.refines).run_eq hst, bracketed_eq_some_iff]
  constructor
  · rintro ⟨st₁, st₂, ho, hs, hc⟩
    exact ⟨st₁, st₂, ho, sepBy_pushBack_iff.1 hs, hc⟩
  · rintro ⟨st₁, st₂, ho, hs, hc⟩
    exact ⟨st₁, st₂, ho, sepBy_pushBack_iff.2 hs, hc⟩

/-- The repetitions are one algorithm: they return the greedy list of element values and leave the
state right after the last element, so that a separator no element follows is given back. -/
theorem repetition_agrees {elem : Parser g V} {sep : Parser g' U} (mem : Memory)
    (opening Sep closing : AnyLiteral) (he : elem.KeepsNonNull) (hs : sep.KeepsNonNull)
    (hst : st.good = true) :
    (sequenceSep mem Sep elem).run st = (sequence elem (separator mem [Sep])).run st ∧
    (sequenceEnclosed mem opening Sep closing elem).run st =
      (enclose (openParser mem opening) (sequenceSep mem Sep elem) (closeParser mem closing)).run st ∧
    (∀ x, elem.run st = some (some x) → (sequence elem sep).run st =
      (foldLeft (map (W := vector V) (fun v => [v]) elem) (sep >>> elem) pushBack).run st) ∧
    (∀ st' vs, (sequence elem sep).run st = some (some (st', vs)) ↔
      Elements sep.run elem.run st vs st') ∧
    (∀ st' vs, (sequenceEnclosed mem opening Sep closing elem).run st = some (some (st', vs)) ↔
      ∃ st₁ st₂, (openParser mem opening).run st = some (some (st₁, ())) ∧
        Elements (separator mem [Sep]).run elem.run st₁ vs st₂ ∧
        (closeParser mem closing).run st₂ = some (some (st', ()))) := by
  have henc := sequenceEnclosed_refines mem opening Sep closing he.refines
  have hin := sequenceSep_refines mem Sep he.refines
  refine ⟨by rw [sequenceSep_eq], ?_, fun x hx => sequence_eq_foldLeft he hs hst hx,
    fun st' vs => ?_, fun st' vs => sequenceEnclosed_iff he hst⟩
  · have h := enclose_refines (openParser_keepsNonNull mem opening).refines hin
      (closeParser_keepsNonNull mem closing).refines
    rw [henc.run_eq hst, h.run_eq hst]; rfl
  · rw [(sequence_refines he.refines hs.refines).run_eq hst, sepBy_pushBack_iff]

/-- Two booleans, in `[true,false]` and in front of a separator that is given back, `true,false,`. -/
theorem repetition_agrees_bool :
    let mem := Memory.ofText [ch '[', ch 't', ch 'r', ch 'u', ch 'e', ch ',', ch 'f', ch 'a', ch 'l', ch 's',
      ch 'e', ch ']', ch 't', ch 'r', ch 'u', ch 'e', ch ',', ch 'f', ch 'a', ch 'l', ch 's', ch 'e', ch ',']
    let elem := boolParser mem
    let comma := AnyLiteral.charLiteral (ch ',')
    let sep := separator mem [comma]
    ((sequenceEnclosed mem (.charLiteral (ch '[')) comma (.charLiteral (ch ']')) elem).run ⟨1, 13⟩ =
        some (some (⟨13, 13⟩, [true, false])) ∧
      (enclose (openParser mem (.charLiteral (ch '['))) (sequenceSep mem comma elem)
        (closeParser mem (.charLiteral (ch ']')))).run ⟨1, 13⟩ = some (some (⟨13, 13⟩, [true, false]))) ∧
    ((sequence elem sep).run ⟨13, 24⟩ = some (some (⟨23, 24⟩, [true, false])) ∧
      (sequenceSep mem comma elem).run ⟨13, 24⟩ = some (some (⟨23, 24⟩, [true, false])) ∧
      (foldLeft (map (W := vector bool) (fun v => [v]) elem) (sep >>> elem) pushBack).run ⟨13, 24⟩ =
        some (some (⟨23, 24⟩, [true, false]))) := by
  intro mem elem comma sep
  have helem : elem.KeepsNonNull := boolParser_advances.keepsNonNull
  have hsep : sep.KeepsNonNull := separator_keepsNonNull mem [comma]
  have h := fun st (hst : State.good st = true) => repetition_agrees mem
    (.charLiteral (ch '[')) comma (.charLiteral (ch ']')) helem hsep hst
  let round := bind sep.run fun _ => elem.run
  have hinside : Elements sep.run elem.run ⟨2, 13⟩ [true, false] ⟨12, 13⟩ := by
    have hfirst : elem.run ⟨2, 13⟩ = some (some (⟨6, 13⟩, true)) := rfl
    have hnext : round ⟨6, 13⟩ = some (some (⟨12, 13⟩, false)) := rfl
    exact .cons hfirst (.step hnext (.stop rfl))
  have htrailing : Elements sep.run elem.run ⟨13, 24⟩ [true, false] ⟨23, 24⟩ := by
    have hfirst : elem.run ⟨13, 24⟩ = some (some (⟨17, 24⟩, true)) := rfl
    have hnext : round ⟨17, 24⟩ = some (some (⟨23, 24⟩, false)) := rfl
    -- the last separator succeeds, and the element behind it fails
    have hstop : round ⟨23, 24⟩ = some none := rfl
    exact .cons hfirst (.step hnext (.stop hstop))
  obtain ⟨-, henclose, -, -, henclosed⟩ := h ⟨1, 13⟩ rfl
  obtain ⟨hseparated, -, hfold, helements, -⟩ := h ⟨13, 24⟩ rfl
  have hbrackets := (henclosed _ _).2 ⟨⟨2, 13⟩, ⟨12, 13⟩, rfl, hinside, rfl⟩
  have hsequence := (helements _ _).2 htrailing
  exact ⟨⟨hbrackets, henclose.symm.trans hbrackets⟩, hsequence, hseparated.trans hsequence,
    (hfold (⟨17, 24⟩, true) rfl).symm.trans hsequence⟩

/-! ### `parse_map` -/

theorem bracketed_eq_map {X : Type} (opening sep closing : AnyLiteral) (elem : Attempt State V)
    (push : X → V → X) (x : X) :
    bracketed mem opening sep closing elem push x =
      Attempt.map (List.foldl push x) (bracketed mem opening sep closing elem pushBack []) := by
  unfold bracketed
  rw [sepBy_eq_map, map_bind]
  refine congrArg _ (funext fun _ => ?_)
  rw [map_bind, bind_map]
  refine congrArg _ (funext fun vs => ?_)
  rw [map_map]; rfl

/-- The value of the first entry of `l` with the key `k` is `x`. -/
def FirstEntry {K X : Type} (l : List (K × X)) (k : K) (x : X) : Prop :=
  ∃ l₁ l₂, l = l₁ ++ (k, x) :: l₂ ∧ ∀ e ∈ l₁, e.1 ≠ k

section
variable {K X : Type} {k : K} {x : X} {l : List (K × X)}

theorem firstEntry_cons_self {x' : X} : FirstEntry ((k, x') :: l) k x ↔ x' = x := by
  constructor
  · rintro ⟨_ | ⟨e, l₁⟩, l₂, h, hne⟩
    · cases h; rfl
    · cases h; exact absurd rfl (hne _ List.mem_cons_self)
  · rintro rfl; exact ⟨[], l, rfl, by simp⟩

theorem firstEntry_cons_of_ne {e : K × X} (he : e.1 ≠ k) :
    FirstEntry (e :: l) k x ↔ FirstEntry l k x := by
  constructor
  · rintro ⟨_ | ⟨e', l₁⟩, l₂, h, hne⟩
    · cases h; exact absurd rfl he
    · cases h; exact ⟨l₁, l₂, rfl, fun e he => hne e (List.mem_cons_of_mem _ he)⟩
  · rintro ⟨l₁, l₂, rfl, hne⟩
    refine ⟨e :: l₁, l₂, rfl, fun e' he' => ?_⟩
    rcases List.mem_cons.1 he' with rfl | he'
    · exact he
    · exact hne e' he'

theorem exists_firstEntry_iff : (∃ x, FirstEntry l k x) ↔ ∃ x, (k, x) ∈ l := by
  constructor
  · rintro ⟨x, l₁, l₂, rfl, -⟩; exact ⟨x, by simp⟩
  · rintro ⟨x, hx⟩
    induction l with
    | nil => cases hx
    | cons e l ih =>
      by_cases he : e.1 = k
      · exact ⟨e.2, [], l, by rw [← he]; rfl, by simp⟩
      · rcases List.mem_cons.1 hx with rfl | hx
        · exact absurd rfl he
        · obtain ⟨y, hy⟩ := ih hx
          exact ⟨y, (firstEntry_cons_of_ne he).2 hy⟩

end

/-- A fold of `emplace` keeps the entries it starts from, and adds the first one of every other key. -/
theorem find?_foldl_emplace {M : Type} [EmplaceMap M V W] (l : List (V × W)) (m : M) (k : V) (x : W) :
    EmplaceMap.find? (l.foldl emplaceEntry m) k = some x ↔
      EmplaceMap.find? m k = some x ∨ (EmplaceMap.find? (X := W.Values) m k = none ∧ FirstEntry l k x) := by
  induction l generalizing m with
  | nil =>
    have hnil : ¬ FirstEntry ([] : List (V × W)) k x := by rintro ⟨l₁, l₂, h, -⟩; simp at h
    simp [hnil]
  | cons e l ih =>
    obtain ⟨k', x'⟩ := e
    rw [List.foldl_cons, ih]
    by_cases hk : k' = k
    · subst hk
      rw [firstEntry_cons_self, emplaceEntry, EmplaceMap.find?_emplace_self]
      rcases EmplaceMap.find? (X := W.Values) m k' with _ | y <;> simp
    · rw [firstEntry_cons_of_ne hk, emplaceEntry, EmplaceMap.find?_emplace_of_ne _ _ _ _ (Ne.symm hk)]

/-- `parse_map` is the bracketed sequence of pairs, whose entries it inserts in order: every key that
occurs is bound to the value of its first occurrence. -/
theorem parseMap_eq_sequence {M : Type} [EmplaceMap M V W] (mem : Memory)
    (opening elemSep keyValueSep closing : AnyLiteral) {key : Parser g V} {val : Parser g' W}
    (hkey : key.KeepsNonNull) (hval : val.KeepsNonNull) (hst : st.good = true) :
    let pairs := sequenceEnclosed mem opening elemSep closing (makePair mem keyValueSep key val)
    let map := parseMap mem M opening elemSep keyValueSep closing key val
    (map.run st).map (Option.map Prod.fst) = (pairs.run st).map (Option.map Prod.fst) ∧
    ∀ st' m, map.run st = some (some (st', m)) → ∃ l : List (V × W),
      pairs.run st = some (some (st', l)) ∧
      (∀ k x, EmplaceMap.find? m k = some x ↔ FirstEntry l k x) ∧
      (∀ k, (EmplaceMap.find? (X := W.Values) m k).isSome ↔ ∃ x, (k, x) ∈ l) := by
  intro pairs map
  have hpair := (makePair_refines mem keyValueSep hkey.refines hval.refines).keepsNonNull.refines
  let B : Attempt State (List (V × W)) := bracketed (V := pair V W) mem opening elemSep closing
    (makePair mem keyValueSep key val).run (pushBack (V := pair V W)) []
  have hpairs : pairs.run st = B st :=
    (sequenceEnclosed_refines mem opening elemSep closing hpair).run_eq hst
  have hmap : map.run st =
      Attempt.map (List.foldl (emplaceEntry (V := V) (W := W)) (EmplaceMap.empty V W : M)) B st := by
    -- the loop inserts one entry after the other; that is a fold over the list of the pairs
    refine ((parseMap_refines M opening elemSep keyValueSep closing hpair).run_eq hst).trans ?_
    exact congrFun (bracketed_eq_map (V := pair V W) opening elemSep closing _ _ _) st
  rw [hmap, hpairs]
  refine ⟨Attempt.map_fst _ _ _, fun st' m hm => ?_⟩
  obtain ⟨st₁, l, hl, hm⟩ := bind_eq_some hm
  cases hm
  have hfind : ∀ k x, EmplaceMap.find? (l.foldl (emplaceEntry (V := V) (W := W))
      (EmplaceMap.empty V W : M)) k = some x ↔ FirstEntry l k x := by
    intro k x
    rw [find?_foldl_emplace, EmplaceMap.find?_empty]
    simp
  refine ⟨l, hl, hfind, fun k => ?_⟩
  rw [Option.isSome_iff_exists, ← exists_firstEntry_iff]
  exact exists_congr fun x => hfind k x

/-- The key `true` twice, in `{true:false,false:true,true:true}`: its first value is kept. -/
theorem parseMap_eq_sequence_bool :
    let mem := Memory.ofText [ch '{', ch 't', ch 'r', ch 'u', ch 'e', ch ':', ch 'f', ch 'a', ch 'l', ch 's',
      ch 'e', ch ',', ch 'f', ch 'a', ch 'l', ch 's', ch 'e', ch ':', ch 't', ch 'r', ch 'u', ch 'e', ch ',',
      ch 't', ch 'r', ch 'u', ch 'e', ch ':', ch 't', ch 'r', ch 'u', ch 'e', ch '}']
    let p := boolParser mem
    ∃ m : StdMap Bool Bool, (parseMap mem (StdMap Bool Bool) (.charLiteral (ch '{')) (.charLiteral (ch ','))
        (.charLiteral (ch ':')) (.charLiteral (ch '}')) p p).run ⟨1, 34⟩ = some (some (⟨34, 34⟩, m)) ∧
      m.find? true = some false ∧ m.find? false = some true := by
  intro mem p
  have hp : p.KeepsNonNull := boolParser_advances.keepsNonNull
  have hst : State.good ⟨1, 34⟩ = true := rfl
  let entry := makePair mem (.charLiteral (ch ':')) p p
  let sep := separator mem [.charLiteral (ch ',')]
  let l : List (Bool × Bool) := [(true, false), (false, true), (true, true)]
  have hentry : entry.KeepsNonNull :=
    (makePair_refines mem (.charLiteral (ch ':')) hp.refines hp.refines).keepsNonNull
  have hentries : Elements sep.run entry.run ⟨2, 34⟩ l ⟨33, 34⟩ := by
    have hfirst : entry.run ⟨2, 34⟩ = some (some (⟨12, 34⟩, (true, false))) := rfl
    have hcomma : sep.run ⟨12, 34⟩ = some (some (⟨13, 34⟩, ())) := rfl
    have hsecond : entry.run ⟨13, 34⟩ = some (some (⟨23, 34⟩, (false, true))) := rfl
    have hcomma' : sep.run ⟨23, 34⟩ = some (some (⟨24, 34⟩, ())) := rfl
    have hthird : entry.run ⟨24, 34⟩ = some (some (⟨33, 34⟩, (true, true))) := rfl
    have hstop : sep.run ⟨33, 34⟩ = some none := rfl
    exact .cons hfirst (.step ((bind_some hcomma).trans hsecond) (.step ((bind_some hcomma').trans hthird)
      (.stop (bind_fail hstop))))
  have hpairs : (sequenceEnclosed mem (.charLiteral (ch '{')) (.charLiteral (ch ',')) (.charLiteral (ch '}'))
      entry).run ⟨1, 34⟩ = some (some (⟨34, 34⟩, l)) :=
    (sequenceEnclosed_iff hentry hst).2 ⟨⟨2, 34⟩, ⟨33, 34⟩, rfl, hentries, rfl⟩
  obtain ⟨hstates, hvalues⟩ := parseMap_eq_sequence (M := StdMap Bool Bool) mem (.charLiteral (ch '{'))
    (.charLiteral (ch ',')) (.charLiteral (ch ':')) (.charLiteral (ch '}')) hp hp hst
  rw [hpairs] at hstates
  obtain ⟨o, ho, hmap⟩ := Option.map_eq_some_iff.1 hstates
  obtain ⟨⟨st', m⟩, rfl, rfl⟩ := Option.map_eq_some_iff.1 hmap
  obtain ⟨l', hl', hfind, -⟩ := hvalues _ m ho
  rw [hpairs] at hl'
  cases hl'
  have hfirst : FirstEntry l true false := ⟨[], _, rfl, by simp⟩
  have hsecond : FirstEntry l false true := ⟨[(true, false)], _, rfl, by simp⟩
  exact ⟨m, ho, (hfind true false).2 hfirst, (hfind false true).2 hsecond⟩

end Noam
