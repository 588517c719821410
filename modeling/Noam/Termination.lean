import Mathlib.Data.List.Perm.Subperm
import Noam.Progress
import Noam.Repetition

/-!
# Repetition loops end

None of the loops has a counter. Each goes on as long as its parsers succeed, and ends because every
round that succeeds leaves fewer characters: a separator literal that is not empty sees to that, also
when the elements take nothing. `Returns n A` says of an attempt that it has a result on every valid
non-null state, and that a success leaves a suffix at least `n` characters shorter.
-/

namespace Noam
open GetResult ValueType Attempt

variable {U V W T : ValueType} {g g' : Bool} {α β X : Type} {mem : Memory} {st st' : State} {n m : Nat}

/-- A state that a parser may be given: valid and not null. -/
structure State.Live (st : State) : Prop where
  valid : st.Valid
  good : st.good = true

theorem State.live_ofLength (n : Nat) : (ofLength n).Live := ⟨Nat.le_add_right 1 n, rfl⟩

theorem State.Suffix.live (h : st'.Suffix st) (hst : st.Live) : st'.Live :=
  ⟨h.valid, State.good_of_le hst.good h.begin_le⟩

theorem State.Suffix.length_lt (h : st'.Suffix st) (hlt : st._begin < st'._begin) :
    st'.length < st.length :=
  State.Below.length_lt ⟨h, hlt⟩

/-- The successes of `A` on live states leave suffixes that are at least `n` characters shorter. -/
def Leaves (n : Nat) (A : Attempt State α) : Prop :=
  ∀ st st' a, st.Live → A st = some (some (st', a)) → st'.Suffix st ∧ st._begin + n ≤ st'._begin

/-- On live states `A` has a result, too. -/
structure Returns (n : Nat) (A : Attempt State α) : Prop where
  total : Total State.Live A
  takes : Leaves n A

/-- A round that takes a character each time it succeeds. -/
def Progresses (A : Attempt State α) : Prop :=
  ∀ st st' a, st.Live → A st = some (some (st', a)) → st._begin < st'._begin

theorem Leaves.mono {A : Attempt State α} (h : Leaves n A) (hm : m ≤ n) : Leaves m A := by
  intro st st' a hst hr
  obtain ⟨hs, hle⟩ := h st st' a hst hr
  exact ⟨hs, by omega⟩

namespace Returns
variable {A : Attempt State α}

theorem suffix (h : Returns n A) {a : α} (hst : st.Live) (hr : A st = some (some (st', a))) :
    st'.Suffix st := (h.takes st st' a hst hr).1

theorem keeps (h : Returns n A) : Keeps State.Live State.Live A :=
  fun _ _ _ hst hr => (h.suffix hst hr).live hst

theorem mono (h : Returns n A) (hm : m ≤ n) : Returns m A := ⟨h.total, h.takes.mono hm⟩

theorem progresses (h : Returns n A) (hn : 0 < n) : Progresses A := by
  intro st st' a hst hr
  have := (h.takes st st' a hst hr).2
  omega

theorem of_takes (h : Takes n A) (ht : Total State.Valid A) : Returns n A :=
  ⟨fun st hst => ht st hst.valid, fun st st' a hst hr => h st st' a hst.valid hr⟩

theorem pure (a : α) : Returns 0 (Attempt.pure (σ := State) a) :=
  of_takes (takes_pure a) (total_pure a)

theorem bind {k : α → Attempt State β} (h : Returns n A) (hk : ∀ a, Returns m (k a)) :
    Returns (n + m) (bind A k) := by
  refine ⟨h.total.bind h.keeps fun a => (hk a).total, fun st st' b hst hr => ?_⟩
  obtain ⟨st₁, a, h₁, h₂⟩ := bind_eq_some hr
  obtain ⟨hs₁, hle₁⟩ := h.takes st st₁ a hst h₁
  obtain ⟨hs₂, hle₂⟩ := (hk a).takes st₁ st' b (hs₁.live hst) h₂
  exact ⟨hs₁.trans hs₂, by omega⟩

theorem map (h : Returns n A) (f : α → β) : Returns n (Attempt.map f A) := h.bind fun a => pure (f a)

theorem orElse {B : Attempt State α} (h : Returns n A) (hB : Returns n B) :
    Returns n (orElse A B) := by
  refine ⟨h.total.orElse hB.total, fun st st' a hst hr => ?_⟩
  rcases hA : A st with _ | _ | x
  · rw [orElse_none hA] at hr; cases hr
  · rw [orElse_fail hA] at hr; exact hB.takes st st' a hst hr
  · rw [orElse_some hA] at hr
    exact h.takes st st' a hst (hA.trans hr)

theorem ofAttempt {A : Attempt State V} (h : Returns n A) (hg : g = true → NeverFails A) :
    Returns n (Parser.ofAttempt g A).run :=
  ⟨total_ofAttempt h.total hg, fun st st' v hst hr => h.takes st st' v hst (eq_of_run_ofAttempt hr)⟩

theorem toFallible {p : Parser g V} (h : Returns n p.run) : Returns n p.toFallible.run := by
  refine ⟨fun st hst => ?_, fun st st' v hst hr => h.takes st st' v hst ?_⟩
  · obtain ⟨o, ho⟩ := Option.isSome_iff_exists.1 (h.total st hst)
    rw [run_toFallible, ho]
    rcases o with _ | x <;> rfl
  · rw [run_toFallible] at hr
    obtain ⟨o, ho, hr⟩ := Option.bind_eq_some_iff.1 hr
    rcases o with _ | y
    · cases hr
    · rw [settle, Option.some.injEq] at hr
      split at hr
      · rw [ho, hr]
      · cases hr

/-- Repeating a round that takes a character when it succeeds. -/
theorem iterate {k : α → Attempt State α} (hk : ∀ a, Returns 0 (k a)) (hp : ∀ a, Progresses (k a))
    (a : α) : Returns 0 (iterate k a) := by
  refine ⟨Total.iterate State.length (fun a => (hk a).total) (fun a st st' a' hst hr => ?_) a,
    fun st st' a' hst hr => ?_⟩
  · have hs := (hk a).suffix hst hr
    exact ⟨hs.live hst, hs.length_lt (hp a st st' a' hst hr)⟩
  · have hs : st'.Suffix st := iterate_induct (motive := fun st _ st' _ => st.Live → st'.Suffix st)
      (fun st _ hst hlive => .refl hlive.valid)
      (fun st a st₁ a₁ st' _ hstep _ ih hlive =>
        have hs := (hk a).suffix hlive hstep
        hs.trans (ih (hs.live hlive))) hr hst
    exact ⟨hs, hs.begin_le⟩

end Returns

/-! ### Elements -/

section
variable {sep : Attempt State α} {elem : Attempt State β} {bs : List β} {push : X → β → X}

theorem Progresses.map {A : Attempt State α} (h : Progresses A) (f : α → β) :
    Progresses (Attempt.map f A) := by
  intro st st' b hst hr
  obtain ⟨st₁, a, h₁, h₂⟩ := bind_eq_some hr
  cases h₂
  exact h st st' a hst h₁

theorem returns_sepBy (hsep : Returns 0 sep) (helem : Returns 0 elem)
    (hround : Progresses (bind sep fun _ => elem)) (x : X) : Returns 0 (sepBy sep elem push x) :=
  .orElse (helem.bind fun b => .iterate (fun y => (hsep.bind fun _ => helem).map (push y))
    (fun y => hround.map (push y)) (push x b)) (.pure x)

/-- A greedy run of rounds that take a character each has no more values than it takes characters. -/
theorem length_le_of_greedy {A : Attempt State β} (hA : Leaves 1 A) (h : Greedy A st bs st')
    (hst : st.Live) : st._begin + bs.length ≤ st'._begin := by
  induction h with
  | stop _ => exact Nat.le_refl _
  | step hr _ ih =>
    obtain ⟨hs, hlt⟩ := hA _ _ _ hst hr
    have hle := ih (hs.live hst)
    rw [List.length_cons]; omega

/-- The first element may take nothing; each of the others comes with a separator. -/
theorem length_le_of_elements (hsep : Returns 0 sep) (helem : Returns 0 elem)
    (hround : Progresses (bind sep fun _ => elem)) (h : Elements sep elem st bs st')
    (hst : st.Live) : st._begin + bs.length ≤ st'._begin + 1 := by
  cases h with
  | nil _ => simp
  | cons hfirst hrest =>
    have hs := helem.suffix hst hfirst
    have hone : Leaves 1 (bind sep fun _ => elem) := fun st st' b hst hr =>
      ⟨(hsep.bind fun _ => helem).suffix hst hr, hround st st' b hst hr⟩
    have hle := length_le_of_greedy hone hrest (hs.live hst)
    have := hs.begin_le
    rw [List.length_cons]; omega

end

/-! ### Separators, brackets and pairs -/

section
variable (mem : Memory) (lit : AnyLiteral)

theorem returns_separator : Returns lit.size (separator mem [lit]).run :=
  .of_takes (takes_separator mem lit) (total_separator mem lit)

theorem returns_openParser : Returns lit.size (openParser mem lit).run :=
  .of_takes (takes_openParser mem lit) (total_openParser mem lit)

theorem returns_closeParser : Returns lit.size (closeParser mem lit).run :=
  .of_takes (takes_closeParser mem lit) (total_closeParser mem lit)

end

section
variable {opening sep closing : AnyLiteral} {A : Attempt State V} {push : X → V → X} {x y : X}

/-- With a separator that is not empty every further round takes a character, whatever the element
takes. -/
theorem progresses_separator (hsep : 0 < sep.size) (hA : Returns 0 A) :
    Progresses (bind (separator mem [sep]).run fun _ => A) :=
  ((returns_separator mem sep).bind fun _ => hA).progresses hsep

theorem returns_elements (hsep : 0 < sep.size) (hA : Returns 0 A) (x : X) :
    Returns 0 (sepBy (separator mem [sep]).run A push x) :=
  returns_sepBy ((returns_separator mem sep).mono (Nat.zero_le _)) hA (progresses_separator hsep hA) x

theorem returns_bracketed (hsep : 0 < sep.size) (hA : Returns 0 A) (x : X) :
    Returns 0 (bracketed mem opening sep closing A push x) :=
  ((returns_openParser mem opening).mono (Nat.zero_le _)).bind fun _ =>
    (returns_elements hsep hA x).bind fun _ =>
      ((returns_closeParser mem closing).mono (Nat.zero_le _)).map _

theorem length_le_of_separated {vs : List V} (hsep : 0 < sep.size) (hA : Returns 0 A)
    (h : Elements (separator mem [sep]).run A st vs st') (hst : st.Live) :
    st._begin + vs.length ≤ st'._begin + 1 :=
  length_le_of_elements ((returns_separator mem sep).mono (Nat.zero_le _)) hA
    (progresses_separator hsep hA) h hst

/-- Between the brackets there are no more elements than characters taken, and one. -/
theorem exists_elements_of_bracketed (hsep : 0 < sep.size) (hA : Returns 0 A) (hst : st.Live)
    (h : bracketed mem opening sep closing A push x st = some (some (st', y))) :
    ∃ vs : List V, y = vs.foldl push x ∧ vs.length ≤ 1 + (st'._begin - st._begin) := by
  obtain ⟨st₁, st₂, ho, he, hc⟩ := bracketed_eq_some_iff.1 h
  obtain ⟨vs, hvs, rfl⟩ := sepBy_eq_some_iff.1 he
  have hs₁ := (returns_openParser mem opening).suffix hst ho
  have helems : Returns 0 (sepBy (separator mem [sep]).run A push x) := returns_elements hsep hA x
  have hs₂ := helems.suffix (hs₁.live hst) he
  have hs₃ := (returns_closeParser mem closing).suffix (hs₂.live (hs₁.live hst)) hc
  have hle := length_le_of_separated hsep hA hvs (hs₁.live hst)
  have := hs₁.begin_le
  have := hs₂.begin_le
  have := hs₃.begin_le
  exact ⟨vs, rfl, by omega⟩

end

/-- The pairs of `parse_map`, for values of any kind. -/
theorem returns_makePair (sep : AnyLiteral) {key : Parser g V} {val : Parser g' W}
    (hkey : Returns 0 key.run) (hval : Returns 0 val.run) :
    Returns 0 (makePair mem sep key val).run := by
  let m : Parser false empty := match_ (.cons (separator mem [sep]) .nil)
  have hm : Returns 0 m.run :=
    .of_takes ((takes_match (takes_cons (takes_separator mem sep) takes_nil)).mono (Nat.zero_le _))
      (total_match (total_cons (total_separator mem sep) (takes_separator mem sep).keeps (total_pure ())))
  have hjoin : Returns 0 (joinLast m val).run := by
    rw [run_joinLast]
    exact hm.bind fun _ => hval.toFallible
  have hpair : Returns 0 (Parsers.cons key (.cons (joinLast m val) .nil)).runAll :=
    hkey.bind fun _ => Returns.map (hjoin.bind fun _ => (Returns.pure ()).map _) _
  have hrun : (makePair mem sep key val).run = (Parser.ofAttempt (V := pair V W) false
      (Attempt.map (fun y => (y.1, y.2.1))
        (Parsers.cons key (.cons (joinLast m val) .nil)).runAll)).run :=
    congrArg Parser.run (makeVariadic_eq _ _)
  rw [hrun]
  exact (hpair.map _).ofAttempt (by simp)

/-! ### The loops -/

/-- The parser returns on `st`, and its value is `few n` for one more than the characters it takes. -/
def Parser.EndsWithFew (p : Parser g T) (st : State) (few : Nat → T → Prop) : Prop :=
  (p.run st).isSome ∧ ∀ st' v, p.run st = some (some (st', v)) → few (1 + (st'._begin - st._begin)) v

/-- At most `n` elements. -/
def FewElements (n : Nat) (vs : List V) : Prop := vs.length ≤ n

/-- A map of at most `n` entries that were parsed, and that has at most `n` keys. -/
def FewEntries {M : Type} [EmplaceMap M V W] (n : Nat) (m : M) : Prop :=
  (∃ l : List (V × W), m = l.foldl emplaceEntry (EmplaceMap.empty V W : M) ∧ l.length ≤ n) ∧
    ∀ ks : List V, ks.Nodup → (∀ k ∈ ks, (EmplaceMap.find? (X := W.Values) m k).isSome) → ks.length ≤ n

theorem fewEntries_of_length_le {M : Type} [EmplaceMap M V W] {l : List (V × W)} (hl : l.length ≤ n) :
    FewEntries (V := V) (W := W) n (l.foldl emplaceEntry (EmplaceMap.empty V W : M)) := by
  refine ⟨⟨l, rfl, hl⟩, fun ks hks hbound => ?_⟩
  have hsub : ks ⊆ l.map Prod.fst := by
    intro k hk
    obtain ⟨x, hx⟩ := Option.isSome_iff_exists.1 (hbound k hk)
    rw [find?_foldl_emplace, EmplaceMap.find?_empty] at hx
    rcases hx with hx | ⟨-, hx⟩
    · cases hx
    · obtain ⟨y, hy⟩ := exists_firstEntry_iff.1 ⟨x, hx⟩
      exact List.mem_map_of_mem hy
  have hle := (hks.subperm hsub).length_le
  rw [List.length_map] at hle
  omega

section
variable {elem : Parser g V} {opening sep kvSep closing : AnyLiteral}

theorem sequenceSep_ends (hsep : 0 < sep.size) (helem : Returns 0 elem.run) (hst : st.Live) :
    (sequenceSep mem sep elem).EndsWithFew st FewElements := by
  have hret := (returns_elements hsep helem []).ofAttempt (V := vector V) (g := true)
    fun _ => neverFails_sepBy (separator mem [sep]).run elem.run pushBack []
  rw [sequenceSep_eq, sequence_eq]
  refine ⟨hret.total st hst, fun st' vs hr => ?_⟩
  have hle := length_le_of_separated hsep helem (sepBy_pushBack_iff.1 (eq_of_run_ofAttempt hr)) hst
  show vs.length ≤ _
  omega

theorem sequenceEnclosed_ends (hsep : 0 < sep.size) (helem : Returns 0 elem.run) (hst : st.Live) :
    (sequenceEnclosed mem opening sep closing elem).EndsWithFew st FewElements := by
  have hret : Returns 0 (bracketed mem opening sep closing elem.run pushBack []) :=
    returns_bracketed hsep helem []
  rw [sequenceEnclosed_eq]
  refine ⟨(hret.ofAttempt (V := vector V) (g := false) (by simp)).total st hst, fun st' vs hr => ?_⟩
  obtain ⟨ws, hws, hle⟩ := exists_elements_of_bracketed hsep helem hst (eq_of_run_ofAttempt hr)
  rw [foldl_pushBack, List.nil_append] at hws
  rwa [hws]

theorem parseMap_ends {M : Type} [EmplaceMap M V W] {key : Parser g V} {val : Parser g' W}
    (hsep : 0 < sep.size) (hkey : Returns 0 key.run) (hval : Returns 0 val.run) (hst : st.Live) :
    (parseMap mem M opening sep kvSep closing key val).EndsWithFew st (FewEntries (V := V) (W := W)) := by
  have hpair : Returns 0 (makePair mem kvSep key val).run := returns_makePair kvSep hkey hval
  have hret : Returns 0 (bracketed mem opening sep closing (makePair mem kvSep key val).run
      (emplaceEntry (V := V) (W := W)) (EmplaceMap.empty V W : M)) := returns_bracketed hsep hpair _
  rw [parseMap_eq]
  refine ⟨(hret.ofAttempt (V := mapType M V W) (g := false) (by simp)).total st hst, fun st' m hr => ?_⟩
  obtain ⟨l, rfl, hle⟩ := exists_elements_of_bracketed hsep hpair hst (eq_of_run_ofAttempt hr)
  exact fewEntries_of_length_le hle

theorem sequence_ends {sep : Parser g' U} (helem : Returns 0 elem.run) (hsep : Returns 0 sep.run)
    (hround : Progresses (bind sep.run fun _ => elem.run)) (hst : st.Live) :
    ((sequence elem sep).run st).isSome := by
  rw [sequence_eq]
  have hret := (returns_sepBy hsep helem hround []).ofAttempt (V := vector V) (g := true)
    fun _ => neverFails_sepBy sep.run elem.run pushBack []
  exact hret.total st hst

theorem foldLeft_ends {rest : Parser g' W} (op : V → W → V) (helem : Returns 0 elem.run)
    (hrest : Returns 0 rest.run) (hround : Progresses rest.run) (hst : st.Live) :
    ((foldLeft elem rest op).run st).isSome := by
  rw [foldLeft_eq]
  have hret := helem.bind fun v => Returns.iterate (fun a => hrest.map (op a))
    (fun a => hround.map (op a)) v
  exact (hret.ofAttempt (g := false) (by simp)).total st hst

end

/-- Every repetition loop ends. With a separator literal that is not empty the three loops over
elements end whatever their elements take, with at most one element more than characters taken; the
other two end when a round takes a character each time it succeeds. -/
theorem repetition_loops_end (mem : Memory) (hst : st.Live) :
    (∀ {g : Bool} {V : ValueType} (elem : Parser g V) (sep : AnyLiteral), Returns 0 elem.run →
      0 < sep.size → (sequenceSep mem sep elem).EndsWithFew st FewElements) ∧
    (∀ {g : Bool} {V : ValueType} (elem : Parser g V) (opening sep closing : AnyLiteral),
      Returns 0 elem.run → 0 < sep.size →
      (sequenceEnclosed mem opening sep closing elem).EndsWithFew st FewElements) ∧
    (∀ {g g' : Bool} {V W : ValueType} (M : Type) [EmplaceMap M V W] (key : Parser g V)
      (val : Parser g' W) (opening sep kvSep closing : AnyLiteral), Returns 0 key.run →
      Returns 0 val.run → 0 < sep.size →
      (parseMap mem M opening sep kvSep closing key val).EndsWithFew st (FewEntries (V := V) (W := W))) ∧
    (∀ {g g' : Bool} {V W : ValueType} (p : Parser g V) (r : Parser g' W) (op : V → W → V),
      Returns 0 p.run → Returns 0 r.run → Progresses r.run → ((foldLeft p r op).run st).isSome) ∧
    (∀ {g g' : Bool} {U V : ValueType} (elem : Parser g V) (sep : Parser g' U), Returns 0 elem.run →
      Returns 0 sep.run → Progresses (bind sep.run fun _ => elem.run) →
      ((sequence elem sep).run st).isSome) :=
  ⟨fun _ _ helem hsep => sequenceSep_ends hsep helem hst,
    fun _ _ _ _ helem hsep => sequenceEnclosed_ends hsep helem hst,
    fun _ _ _ _ _ _ _ _ hkey hval hsep => parseMap_ends hsep hkey hval hst,
    fun _ _ op hp hr hround => foldLeft_ends op hp hr hround hst,
    fun _ _ helem hsep hround => sequence_ends helem hsep hround hst⟩

/-- Elements that take nothing, between two commas. -/
theorem repetition_loops_end_pure :
    (sequenceSep (Memory.ofText [ch ',', ch ',']) (.charLiteral (ch ','))
      (pureParser (V := ValueType.bool) true)).EndsWithFew (State.ofLength 2) FewElements := by
  have hst : (State.ofLength 2).Live := State.live_ofLength 2
  have helem : Returns 0 (pureParser (V := ValueType.bool) true).run := Returns.pure (α := Bool) true
  exact (repetition_loops_end _ hst).1 _ _ helem (by decide)

end Noam
