import Noam.Progress

/-!
# Guarded recursion

A function of a parser is guarded when it uses the parser on strictly shorter states only. `recurse` of
such a function ends: the nesting of its calls is bounded by the length of the input. It is a fixpoint
of the function, and the only one among the parsers that return suffixes.
-/

namespace Noam
open GetResult ValueType Attempt Loop

variable {T V : ValueType} {g : Bool} {st t : State} {func : Parser false T → Parser g T}

/-- A set of valid states with all their suffixes. -/
structure SuffixClosed (D : State → Prop) : Prop where
  valid : ∀ st, D st → st.Valid
  suffix : ∀ st t, D st → t.Suffix st → D t

theorem suffixClosed_valid : SuffixClosed State.Valid := ⟨fun _ h => h, fun _ _ _ h => h.valid⟩

/-- Valid states that are not null. -/
def NonNullValid (st : State) : Prop := st.Valid ∧ st.good = true

theorem suffixClosed_nonNullValid : SuffixClosed NonNullValid :=
  ⟨fun _ h => h.1, fun _ _ h hs => ⟨hs.valid, State.good_of_le h.2 hs.begin_le⟩⟩

/-- `func q` returns suffixes when `q` does, and on a state of `D` it uses `q` on strictly shorter
suffixes only: it ends when `q` ends on these, and what it returns is determined by what `q` returns
on these, where `q` returns at all. A call of `q` that never returns cannot be observed, so a result of
`func q` is also one of `func q'` for a `q'` that returns more often. -/
structure Guarded (D : State → Prop) (func : Parser false T → Parser g T) : Prop where
  suffixReturning : ∀ q, q.SuffixReturning → (func q).SuffixReturning
  terminates : ∀ q st, q.SuffixReturning → D st → (∀ t, st.Below t → (q.run t).isSome) →
    ((func q).run st).isSome
  depends : ∀ q q' st, q.SuffixReturning → q'.SuffixReturning → D st →
    (∀ t o, st.Below t → q.run t = some o → q'.run t = some o) →
    ∀ o, (func q).run st = some o → (func q').run st = some o

theorem Guarded.mono {D E : State → Prop} (h : Guarded D func) (hE : ∀ st, E st → D st) :
    Guarded E func where
  suffixReturning := h.suffixReturning
  terminates q st hq hst := h.terminates q st hq (hE st hst)
  depends q q' st hq hq' hst := h.depends q q' st hq hq' (hE st hst)

/-! ### The conversion of results -/

theorem isSome_run_toFallible (p : Parser g V) (st : State) :
    (p.toFallible.run st).isSome = (p.run st).isSome := by
  rw [run_toFallible]
  rcases p.run st with _ | _ | x <;> rfl

theorem Parser.SuffixReturning.toFallible {p : Parser g V} (h : p.SuffixReturning) :
    p.toFallible.SuffixReturning := by
  intro st hv st' v hr
  rw [run_toFallible] at hr
  obtain ⟨o, ho, hr⟩ := Option.bind_eq_some_iff.1 hr
  rcases o with _ | ⟨st₁, w⟩
  · cases hr
  · rw [settle, Option.some.injEq] at hr
    split at hr
    · cases hr; exact h st hv _ _ ho
    · cases hr

/-- On a non-null state nothing is lost in the conversion. -/
theorem Parser.SuffixReturning.run_toFallible {p : Parser g V} (h : p.SuffixReturning)
    (hst : NonNullValid st) : p.toFallible.run st = p.run st := by
  rw [Noam.run_toFallible]
  rcases hp : p.run st with _ | _ | ⟨st', v⟩
  · rfl
  · rfl
  · have hs := h st hst.1 st' v hp
    exact settle_of_good (State.good_of_le hst.2 hs.begin_le) v

/-! ### Calls of bounded depth -/

theorem recurseConstantWithin_succ (func : Parser false T → Parser g T) (depth : Nat) :
    recurseConstantWithin func (depth + 1) = (func (recurseConstantWithin func depth)).toFallible := by
  refine Parser.ext fun st => ?_
  show ((func (recurseConstantWithin func depth)).parse st).bind _ = Option.map _ _
  rcases (func (recurseConstantWithin func depth)).parse st with _ | r <;> rfl

theorem search_map {β γ : Type} (f : Nat → Option β) (k : β → γ) :
    (search f).map k = search fun n => (f n).map k := by
  have hrel : Option.Rel (fun b c => k b = c) (search f) (search fun n => (f n).map k) := by
    refine rel_search fun n => ?_
    rcases f n with _ | b
    · exact .none
    · exact .some rfl
  have hmap : Option.Rel Eq ((search f).map k) ((search fun n => (f n).map k).map id) :=
    Loop.rel_map hrel fun b c h => h
  rw [Option.map_id] at hmap
  exact rel_eq.1 hmap

theorem run_recurse (func : Parser false T → Parser g T) (st : State) :
    (recurse func).run st = search fun depth => (recurseConstantWithin func depth).run st := by
  rw [recurse_eq]
  exact search_map _ _

namespace Guarded
variable {D : State → Prop} (h : Guarded D func) (hD : SuffixClosed D)
include h

theorem suffixReturning_within (depth : Nat) : (recurseConstantWithin func depth).SuffixReturning := by
  induction depth with
  | zero => intro st _ st' v hr; cases hr
  | succ depth ih =>
    rw [recurseConstantWithin_succ]
    exact (h.suffixReturning _ ih).toFallible

theorem suffixReturning_recurse : (recurse func).SuffixReturning := by
  intro st hv st' v hr
  rw [run_recurse] at hr
  obtain ⟨depth, hdepth, -⟩ := search_eq_some_iff.1 hr
  exact h.suffixReturning_within depth st hv st' v hdepth

include hD

/-- As many nested calls as there are characters, and one more, are enough. -/
theorem isSome_within (depth : Nat) (hst : D st) (hlt : st.length < depth) :
    ((recurseConstantWithin func depth).run st).isSome := by
  induction depth generalizing st with
  | zero => omega
  | succ depth ih =>
    have hbelow : ∀ t, st.Below t → ((recurseConstantWithin func depth).run t).isSome := by
      intro t ht
      have hlen := ht.length_lt
      exact ih (hD.suffix st t hst ht.1) (by omega)
    rw [recurseConstantWithin_succ, isSome_run_toFallible]
    exact h.terminates _ st (h.suffixReturning_within depth) hst hbelow

/-- More nested calls do not change a result. -/
theorem within_succ (depth : Nat) {o : Option (State × T)} (hst : D st)
    (ho : (recurseConstantWithin func depth).run st = some o) :
    (recurseConstantWithin func (depth + 1)).run st = some o := by
  induction depth generalizing st o with
  | zero => cases ho
  | succ depth ih =>
    rw [recurseConstantWithin_succ, run_toFallible] at ho ⊢
    obtain ⟨x, hx, ho⟩ := Option.bind_eq_some_iff.1 ho
    have hmore := h.depends _ _ st (h.suffixReturning_within depth)
      (h.suffixReturning_within (depth + 1)) hst
      (fun t o ht hr => ih (hD.suffix st t hst ht.1) hr) x hx
    rw [hmore]; exact ho

theorem run_recurse_iff {o : Option (State × T)} (hst : D st) :
    (recurse func).run st = some o ↔ ∃ depth, (recurseConstantWithin func depth).run st = some o := by
  rw [run_recurse]
  exact search_eq_some_of_mono fun depth o ho => h.within_succ hD depth hst ho

/-- Guarded recursion ends. -/
theorem isSome_recurse (hst : D st) : ((recurse func).run st).isSome := by
  obtain ⟨o, ho⟩ := Option.isSome_iff_exists.1 (h.isSome_within hD _ hst (Nat.lt_succ_self _))
  rw [(h.run_recurse_iff hD hst).2 ⟨_, ho⟩]; rfl

/-- `recurse(f) = f(recurse(f))` -/
theorem recurse_unfold (hst : D st) (hgood : st.good = true) :
    (recurse func).run st = (func (recurse func)).run st := by
  obtain ⟨o, ho⟩ := Option.isSome_iff_exists.1 (h.isSome_recurse hD hst)
  obtain ⟨_ | depth, hdepth⟩ := (h.run_recurse_iff hD hst).1 ho
  · cases hdepth
  have hfunc := h.suffixReturning _ (h.suffixReturning_within depth)
  have hrun : (func (recurseConstantWithin func depth)).run st = some o := by
    rw [← hfunc.run_toFallible ⟨hD.valid st hst, hgood⟩, ← recurseConstantWithin_succ, hdepth]
  have hbelow : ∀ t o, st.Below t → (recurseConstantWithin func depth).run t = some o →
      (recurse func).run t = some o :=
    fun t o ht hr => (h.run_recurse_iff hD (hD.suffix st t hst ht.1)).2 ⟨depth, hr⟩
  rw [ho, h.depends _ _ st (h.suffixReturning_within depth) h.suffixReturning_recurse hst hbelow o hrun]

/-- There is no other fixpoint that returns suffixes. -/
theorem recurse_unique {q : Parser false T} (hq : q.SuffixReturning)
    (hfix : ∀ t, D t → t.good = true → q.run t = (func q).run t) (hst : D st)
    (hgood : st.good = true) : q.run st = (recurse func).run st := by
  induction hn : st.length using Nat.strong_induction_on generalizing st with
  | _ n ih =>
    have hbelow : ∀ t, st.Below t → (recurse func).run t = q.run t := by
      intro t ht
      have hlen := ht.length_lt
      exact (ih t.length (by omega) (hD.suffix st t hst ht.1)
        (State.good_of_le hgood ht.1.begin_le) rfl).symm
    obtain ⟨o, ho⟩ := Option.isSome_iff_exists.1 (h.isSome_recurse hD hst)
    have hrun := (h.recurse_unfold hD hst hgood).symm.trans ho
    rw [hfix st hst hgood, ho]
    exact h.depends _ _ st h.suffixReturning_recurse hq hst
      (fun t o ht hr => (hbelow t ht).symm.trans hr) o hrun

end Guarded

end Noam
