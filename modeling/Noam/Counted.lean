import Noam.Attempt

/-!
# Computations with a count

`Counted σ α` is `Attempt σ α` with a count of the ticks on the way, to a failure as well. The operations
are those of `Attempt`: `erase` forgets the count and commutes with all of them.
-/

/-- `none` is "no result", `some (n, none)` a failure after `n` ticks. -/
def Counted (σ α : Type) := σ → Option (Nat × Option (σ × α))

namespace Counted
variable {σ α β γ : Type}

def erase (c : Counted σ α) : Attempt σ α := fun s => (c s).map Prod.snd

/-- A computation that does not tick. -/
def free (p : Attempt σ α) : Counted σ α := fun s => (p s).map fun o => (0, o)

def tick (c : Counted σ α) : Counted σ α := fun s => (c s).map fun x => (x.1 + 1, x.2)

def bind (c : Counted σ α) (k : α → Counted σ β) : Counted σ β := fun s => do
  match ← c s with
  | (n, none) => return (n, none)
  | (n, some (s', a)) =>
    let (m, o) ← k a s'
    return (n + m, o)

def orElse (c d : Counted σ α) : Counted σ α := fun s => do
  match ← c s with
  | (n, none) =>
    let (m, o) ← d s
    return (n + m, o)
  | (n, some x) => return (n, some x)

def map (f : α → β) (c : Counted σ α) : Counted σ β := bind c fun a => free (Attempt.pure (f a))

/-- One round of `iterate`, added to the count. -/
def iterateRound (round : α → Counted σ α) (x : Nat × σ × α) :
    Option (Loop.Round (Nat × σ × α) (Nat × σ × α)) := do
  match ← round x.2.2 x.2.1 with
  | (n, none) => return .done (x.1 + n, x.2)
  | (n, some y) => return .next (x.1 + n, y)

def iterate (round : α → Counted σ α) (a : α) : Counted σ α := fun s => do
  let (n, x) ← Loop.loop (iterateRound round) (0, s, a)
  return (n, some x)

def sepBy (sep : Counted σ α) (elem : Counted σ β) (push : γ → β → γ) (x : γ) : Counted σ γ :=
  orElse (bind elem fun b => iterate (fun x => map (push x) (bind sep fun _ => elem)) (push x b))
    (free (Attempt.pure x))

/-! ### Without the count -/

section
variable {c d : Counted σ α} {k : α → Counted σ β}

theorem erase_free (p : Attempt σ α) : (free p).erase = p := by
  funext s
  simp [erase, free, Function.comp_def]

theorem erase_tick (c : Counted σ α) : (tick c).erase = c.erase := by
  funext s
  simp [erase, tick, Function.comp_def]

theorem erase_bind (c : Counted σ α) (k : α → Counted σ β) :
    (bind c k).erase = Attempt.bind c.erase fun a => (k a).erase := by
  funext s
  rcases h : c s with _ | ⟨n, _ | ⟨s', a⟩⟩
  · simp [erase, bind, Attempt.bind, h]
  · simp [erase, bind, Attempt.bind, h]
  · rcases hk : k a s' with _ | ⟨m, o⟩ <;> simp [erase, bind, Attempt.bind, h, hk]

theorem erase_orElse (c d : Counted σ α) : (orElse c d).erase = Attempt.orElse c.erase d.erase := by
  funext s
  rcases h : c s with _ | ⟨n, _ | x⟩
  · simp [erase, orElse, Attempt.orElse, h]
  · rcases hd : d s with _ | ⟨m, o⟩ <;> simp [erase, orElse, Attempt.orElse, h, hd]
  · simp [erase, orElse, Attempt.orElse, h]

theorem erase_map (f : α → β) (c : Counted σ α) : (map f c).erase = Attempt.map f c.erase := by
  simp only [map, erase_bind, erase_free]
  rfl

theorem erase_iterate (k : α → Counted σ α) (a : α) :
    (iterate k a).erase = Attempt.iterate (fun a => (k a).erase) a := by
  funext s
  have hrel : Option.Rel (fun x y => x.2 = y) (Loop.loop (iterateRound k) (0, s, a))
      (Loop.loop (Attempt.iterateRound fun a => (k a).erase) (s, a)) := by
    refine Loop.rel_loop (R := fun x y => x.2 = y) (fun x y hxy => ?_) rfl
    subst hxy
    rcases h : k x.2.2 x.2.1 with _ | ⟨n, _ | y⟩
    · simp [iterateRound, Attempt.iterateRound, erase, h]
    · simpa [iterateRound, Attempt.iterateRound, erase, h] using Option.Rel.some (.done rfl)
    · simpa [iterateRound, Attempt.iterateRound, erase, h] using Option.Rel.some (.next rfl)
  simp only [erase, iterate, Attempt.iterate]
  generalize Loop.loop (iterateRound k) (0, s, a) = x at hrel
  generalize Loop.loop (Attempt.iterateRound _) (s, a) = y at hrel
  cases hrel with
  | none => rfl
  | some h => simp [h]

theorem erase_sepBy (sep : Counted σ α) (elem : Counted σ β) (push : γ → β → γ) (x : γ) :
    (sepBy sep elem push x).erase = Attempt.sepBy sep.erase elem.erase push x := by
  simp only [sepBy, Attempt.sepBy, Attempt.separated, erase_orElse, erase_bind, erase_iterate,
    erase_map, erase_free]

end

/-! ### Where the ticks come from -/

section
variable {c d : Counted σ α} {s : σ} {n : Nat}

theorem free_eq {p : Attempt σ α} {o : Option (σ × α)} (h : free p s = some (n, o)) :
    n = 0 ∧ p s = some o := by
  obtain ⟨x, hx, heq⟩ := Option.map_eq_some_iff.1 h
  cases heq
  exact ⟨rfl, hx⟩

theorem bind_cases {k : α → Counted σ β} {o : Option (σ × β)} (h : bind c k s = some (n, o)) :
    (c s = some (n, none) ∧ o = none) ∨ ∃ n₁ s' a n₂, c s = some (n₁, some (s', a)) ∧
      k a s' = some (n₂, o) ∧ n = n₁ + n₂ := by
  obtain ⟨⟨n₁, _ | ⟨s', a⟩⟩, hc, h⟩ := Option.bind_eq_some_iff.1 h
  · cases h
    exact .inl ⟨hc, rfl⟩
  · obtain ⟨⟨n₂, o'⟩, hk, h⟩ := Option.bind_eq_some_iff.1 h
    cases h
    exact .inr ⟨n₁, s', a, n₂, hc, hk, rfl⟩

theorem orElse_cases {o : Option (σ × α)} (h : orElse c d s = some (n, o)) :
    (∃ x, c s = some (n, some x) ∧ o = some x) ∨ ∃ n₁ n₂, c s = some (n₁, none) ∧
      d s = some (n₂, o) ∧ n = n₁ + n₂ := by
  obtain ⟨⟨n₁, _ | x⟩, hc, h⟩ := Option.bind_eq_some_iff.1 h
  · obtain ⟨⟨n₂, o'⟩, hd, h⟩ := Option.bind_eq_some_iff.1 h
    cases h
    exact .inr ⟨n₁, n₂, hc, hd, rfl⟩
  · cases h
    exact .inl ⟨x, hc, rfl⟩

theorem map_cases {f : α → β} {o : Option (σ × β)} (h : map f c s = some (n, o)) :
    ∃ o', c s = some (n, o') ∧ o = o'.map fun x => (x.1, f x.2) := by
  rcases bind_cases h with ⟨hc, rfl⟩ | ⟨n₁, s', a, n₂, hc, hk, rfl⟩
  · exact ⟨none, hc, rfl⟩
  · obtain ⟨rfl, hk⟩ := free_eq hk
    cases hk
    exact ⟨some (s', a), hc, rfl⟩

theorem map_fail {f : α → β} (h : c s = some (n, none)) : map f c s = some (n, none) := by
  simp [map, bind, h]

/-- A repetition ends with the round that fails, and its ticks are those of all rounds. -/
theorem iterate_induct {k : α → Counted σ α} {motive : σ → α → Nat → σ → α → Prop}
    (stop : ∀ s a n, k a s = some (n, none) → motive s a n s a)
    (next : ∀ s a n s' a' m s'' a'', k a s = some (n, some (s', a')) → motive s' a' m s'' a'' →
      motive s a (n + m) s'' a'')
    {a : α} {o : Option (σ × α)} (h : iterate k a s = some (n, o)) :
    ∃ s' a', o = some (s', a') ∧ motive s a n s' a' := by
  obtain ⟨⟨n', s', a'⟩, hl, h⟩ := Option.bind_eq_some_iff.1 h
  cases h
  refine ⟨s', a', rfl, ?_⟩
  -- the loop has counted `x.1` before
  suffices ∃ m, n = 0 + m ∧ motive s a m s' a' by
    obtain ⟨m, rfl, hm⟩ := this
    rwa [Nat.zero_add]
  refine Loop.loop_induct (k := iterateRound k)
    (motive := fun x y => ∃ m, y.1 = x.1 + m ∧ motive x.2.1 x.2.2 m y.2.1 y.2.2)
    (fun x y hround => ?_) (fun x x' y hround ih => ?_) hl
  all_goals
    obtain ⟨n₁, s, a⟩ := x
    obtain ⟨⟨n₂, _ | ⟨s₁, a₁⟩⟩, hk, hround⟩ := Option.bind_eq_some_iff.1 hround <;> cases hround
  · exact ⟨n₂, rfl, stop s a n₂ hk⟩
  · obtain ⟨m, hm, hmotive⟩ := ih
    exact ⟨n₂ + m, by simp only [hm]; omega, next s a n₂ s₁ a₁ m _ _ hk hmotive⟩

end

end Counted
