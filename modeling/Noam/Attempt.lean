import Noam.Loop

/-!
# Backtracking computations

`Attempt σ α` is a computation on a state `σ` that may have no result at all (`none`), fail
(`some none`) or succeed with a new state and a value. The operations are sequencing (`bind`),
ordered choice (`orElse`) and greedy repetition (`iterate`); a failure always gives the state it
was started from back, since it returns none. Every operation comes with its algebraic laws, with
the rule that it respects a relation on states (`Rel`, from which invariants, independence of the
representation and agreement of two evaluations all follow) and with the rule that it has a result
(`Total`).
-/

universe u

abbrev Attempt (σ α : Type u) := σ → Option (Option (σ × α))

namespace Attempt
variable {σ τ α β γ δ : Type u}

def pure (a : α) : Attempt σ α := fun s => some (some (s, a))

def fail : Attempt σ α := fun _ => some none

def bind (p : Attempt σ α) (k : α → Attempt σ β) : Attempt σ β := fun s => do
  match ← p s with
  | none => return none
  | some (s', a) => k a s'

def orElse (p q : Attempt σ α) : Attempt σ α := fun s => do
  match ← p s with
  | none => q s
  | some x => return some x

def map (f : α → β) (p : Attempt σ α) : Attempt σ β := bind p fun a => pure (f a)

/-- Run `p` without moving the state; a failure is the value `none`. -/
def peek (p : Attempt σ α) : Attempt σ (Option α) := fun s => do
  return some (s, (← p s).map Prod.snd)

/-- One round of `iterate`: go on while `round` succeeds. -/
def iterateRound (round : α → Attempt σ α) (x : σ × α) : Option (Loop.Round (σ × α) (σ × α)) := do
  match ← round x.2 x.1 with
  | none => return .done x
  | some y => return .next y

/-- Repeat `round` on its own value until it fails, and keep what was reached before. -/
def iterate (round : α → Attempt σ α) (a : α) : Attempt σ α := fun s => do
  return some (← Loop.loop (iterateRound round) (s, a))

/-- Separator and element, again and again, each value pushed onto `x`. -/
def separated (sep : Attempt σ α) (elem : Attempt σ β) (push : γ → β → γ) (x : γ) : Attempt σ γ :=
  iterate (fun x => map (push x) (bind sep fun _ => elem)) x

/-- Elements with a separator between them, pushed onto `x`; `x` if there is none. -/
def sepBy (sep : Attempt σ α) (elem : Attempt σ β) (push : γ → β → γ) (x : γ) : Attempt σ γ :=
  orElse (bind elem fun b => separated sep elem push (push x b)) (pure x)

/-! ### Evaluation -/

section
variable {p q : Attempt σ α} {k : α → Attempt σ β} {s s' : σ} {a : α}

theorem bind_none (h : p s = none) : bind p k s = none := by simp [bind, h]

theorem bind_fail (h : p s = some none) : bind p k s = some none := by simp [bind, h]

theorem bind_some (h : p s = some (some (s', a))) : bind p k s = k a s' := by simp [bind, h]

theorem orElse_none (h : p s = none) : orElse p q s = none := by simp [orElse, h]

theorem orElse_fail (h : p s = some none) : orElse p q s = q s := by simp [orElse, h]

theorem orElse_some {x : σ × α} (h : p s = some (some x)) : orElse p q s = some (some x) := by
  simp [orElse, h]

theorem orElse_of_ne_fail (h : p s ≠ some none) : orElse p q s = p s := by
  rcases hp : p s with _ | _ | x
  · rw [orElse_none hp]
  · exact absurd hp h
  · rw [orElse_some hp]

theorem iterate_none {k : α → Attempt σ α} (h : k a s = none) : iterate k a s = none := by
  have hr : iterateRound k (s, a) = none := by simp [iterateRound, h]
  rw [iterate, Loop.loop_none hr]; rfl

theorem iterate_fail {k : α → Attempt σ α} (h : k a s = some none) :
    iterate k a s = some (some (s, a)) := by
  have hr : iterateRound k (s, a) = some (.done (s, a)) := by simp [iterateRound, h]
  rw [iterate, Loop.loop_done hr]; rfl

theorem iterate_some {k : α → Attempt σ α} {a' : α} (h : k a s = some (some (s', a'))) :
    iterate k a s = iterate k a' s' := by
  have hr : iterateRound k (s, a) = some (.next (s', a')) := by simp [iterateRound, h]
  rw [iterate, Loop.loop_next hr]; rfl

/-- Induction over the rounds of a repetition that ended. -/
theorem iterate_induct {k : α → Attempt σ α} {motive : σ → α → σ → α → Prop}
    (stop : ∀ s a, k a s = some none → motive s a s a)
    (step : ∀ s a s₁ a₁ s' a', k a s = some (some (s₁, a₁)) →
      iterate k a₁ s₁ = some (some (s', a')) → motive s₁ a₁ s' a' → motive s a s' a')
    {s' : σ} {a' : α} (h : iterate k a s = some (some (s', a'))) : motive s a s' a' := by
  obtain ⟨x, hx, hs⟩ := Option.bind_eq_some_iff.1 h
  obtain rfl : x = (s', a') := by injection hs with hs; injection hs
  refine (Loop.loop_induct (k := iterateRound k)
    (motive := fun x y => iterate k x.2 x.1 = some (some y) ∧ motive x.1 x.2 y.1 y.2)
    (fun x y hr => ?_) (fun x x' y hr ih => ?_) hx).2
  · rcases hk : k x.2 x.1 with _ | _ | z <;> simp only [iterateRound, hk] at hr <;> cases hr
    exact ⟨iterate_fail hk, stop _ _ hk⟩
  · rcases hk : k x.2 x.1 with _ | _ | z <;> simp only [iterateRound, hk] at hr <;> cases hr
    exact ⟨(iterate_some hk).trans ih.1, step _ _ _ _ _ _ hk ih.1 ih.2⟩

theorem map_apply (f : α → β) (p : Attempt σ α) (s : σ) :
    map f p s = (p s).map (Option.map fun x => (x.1, f x.2)) := by
  rcases h : p s with _ | _ | ⟨s', a⟩
  · rw [map, bind_none h]; rfl
  · rw [map, bind_fail h]; rfl
  · rw [map, bind_some h]; rfl

theorem map_fst (f : α → β) (p : Attempt σ α) (s : σ) :
    (map f p s).map (Option.map Prod.fst) = (p s).map (Option.map Prod.fst) := by
  rw [map_apply, Option.map_map]
  rcases p s with _ | _ | x <;> rfl

theorem bind_eq_some {x : σ × β} (h : bind p k s = some (some x)) :
    ∃ s' a, p s = some (some (s', a)) ∧ k a s' = some (some x) := by
  rcases hp : p s with _ | _ | ⟨s', a⟩
  · rw [bind_none hp] at h; cases h
  · rw [bind_fail hp] at h; cases h
  · exact ⟨s', a, rfl, by rwa [bind_some hp] at h⟩

end

/-! ### Laws -/

section
variable (p q r : Attempt σ α) (k : α → Attempt σ β) (l : β → Attempt σ γ)

theorem bind_pure : bind p pure = p := by
  funext s
  rcases h : p s with _ | _ | ⟨s', a⟩
  · rw [bind_none h]
  · rw [bind_fail h]
  · rw [bind_some h]; rfl

theorem bind_assoc : bind (bind p k) l = bind p fun a => bind (k a) l := by
  funext s
  rcases h : p s with _ | _ | ⟨s', a⟩
  · rw [bind_none h, bind_none (bind_none h)]
  · rw [bind_fail h, bind_fail (bind_fail h)]
  · rw [bind_some h]; simp only [bind, h]; rfl

theorem orElse_fail_right : orElse p fail = p := by
  funext s
  rcases h : p s with _ | _ | x
  · rw [orElse_none h]
  · rw [orElse_fail h]; rfl
  · rw [orElse_some h]

theorem orElse_assoc : orElse (orElse p q) r = orElse p (orElse q r) := by
  funext s
  rcases h : p s with _ | _ | x
  · rw [orElse_none h, orElse_none (orElse_none h)]
  · rw [orElse_fail h]; simp only [orElse, h]; rfl
  · rw [orElse_some h, orElse_some (orElse_some h)]

/-- Left factoring: a common first step may be shared, since it is deterministic. -/
theorem bind_orElse (k l : α → Attempt σ β) :
    orElse (bind p k) (bind p l) = bind p fun a => orElse (k a) (l a) := by
  funext s
  rcases h : p s with _ | _ | ⟨s', a⟩
  · rw [bind_none h, orElse_none (bind_none h)]
  · rw [bind_fail h, orElse_fail (bind_fail h), bind_fail h]
  · rw [bind_some h]; simp only [orElse, bind_some h]

theorem map_map (f : α → β) (g : β → γ) : map g (map f p) = map (g ∘ f) p := by
  funext s; simp only [map_apply, Option.map_map]; congr 1; funext x; cases x <;> rfl

theorem map_id : map id p = p := bind_pure p

theorem map_bind (g : β → γ) : map g (bind p k) = bind p fun a => map g (k a) := bind_assoc ..

theorem bind_map (f : α → β) : bind (map f p) l = bind p fun a => l (f a) := by
  rw [map, bind_assoc]; rfl

end

/-! ### Relations between attempts -/

/-- Outcomes that agree: both failed, or both succeeded with related states and values. -/
abbrev Agree (R : σ → τ → Prop) (S : α → β → Prop) : Option (σ × α) → Option (τ × β) → Prop :=
  Option.Rel fun x y => R x.1 y.1 ∧ S x.2 y.2

/-- From states related by `R` the two attempts have no result both, or outcomes that agree, with
states related by `R'` and values by `S`. -/
def Rel (R R' : σ → τ → Prop) (S : α → β → Prop) (p : Attempt σ α) (q : Attempt τ β) : Prop :=
  ∀ s t, R s t → Option.Rel (Agree R' S) (p s) (q t)

section
variable {R R' R'' : σ → τ → Prop} {S : α → β → Prop} {S' : γ → δ → Prop}

theorem rel_pure {a : α} {b : β} (h : S a b) : Rel R R S (pure a) (pure b) :=
  fun _ _ hst => .some (.some ⟨hst, h⟩)

theorem rel_fail : Rel R R' S (fail : Attempt σ α) (fail : Attempt τ β) :=
  fun _ _ _ => .some .none

theorem rel_bind {p : Attempt σ α} {q : Attempt τ β} {k : α → Attempt σ γ} {l : β → Attempt τ δ}
    (h : Rel R R' S p q) (hk : ∀ a b, S a b → Rel R' R'' S' (k a) (l b)) :
    Rel R R'' S' (bind p k) (bind q l) := by
  intro s t hst
  refine Loop.rel_bind (h s t hst) fun x y hxy => ?_
  cases hxy with
  | none => exact .some .none
  | some hxy => exact hk _ _ hxy.2 _ _ hxy.1

theorem rel_orElse {p p' : Attempt σ α} {q q' : Attempt τ β} (h : Rel R R' S p q)
    (h' : Rel R R' S p' q') : Rel R R' S (orElse p p') (orElse q q') := by
  intro s t hst
  refine Loop.rel_bind (h s t hst) fun x y hxy => ?_
  cases hxy with
  | none => exact h' s t hst
  | some hxy => exact .some (.some hxy)

theorem rel_map {p : Attempt σ α} {q : Attempt τ β} {f : α → γ} {g : β → δ} (h : Rel R R' S p q)
    (hfg : ∀ a b, S a b → S' (f a) (g b)) : Rel R R' S' (map f p) (map g q) :=
  rel_bind h fun _ _ hab => rel_pure (hfg _ _ hab)

theorem rel_peek {p : Attempt σ α} {q : Attempt τ β} (h : Rel R R' S p q) :
    Rel R R (Option.Rel S) (peek p) (peek q) := by
  intro s t hst
  refine Loop.rel_bind (h s t hst) fun x y hxy => ?_
  cases hxy with
  | none => exact .some (.some ⟨hst, .none⟩)
  | some hxy => exact .some (.some ⟨hst, .some hxy.2⟩)

theorem rel_iterate {k : α → Attempt σ α} {l : β → Attempt τ β}
    (h : ∀ a b, S a b → Rel R R S (k a) (l b)) {a : α} {b : β} (hab : S a b) :
    Rel R R S (iterate k a) (iterate l b) := by
  intro s t hst
  refine Loop.rel_bind (Loop.rel_loop (R := fun x y => R x.1 y.1 ∧ S x.2 y.2)
    (Q := fun x y => R x.1 y.1 ∧ S x.2 y.2) (fun x y hxy => ?_) ⟨hst, hab⟩) fun x y hxy =>
    .some (.some hxy)
  refine Loop.rel_bind (h _ _ hxy.2 _ _ hxy.1) fun u v huv => ?_
  cases huv with
  | none => exact .some (.done hxy)
  | some huv => exact .some (.next huv)

theorem rel_sepBy {sep : Attempt σ α} {sep' : Attempt τ β} {elem : Attempt σ γ} {elem' : Attempt τ γ}
    {ε ε' : Type u} {push : ε → γ → ε} {push' : ε' → γ → ε'} {Q : ε → ε' → Prop}
    (hsep : Rel R R S sep sep') (helem : Rel R R Eq elem elem')
    (hpush : ∀ x x' v, Q x x' → Q (push x v) (push' x' v)) {x : ε} {x' : ε'} (hx : Q x x') :
    Rel R R Q (sepBy sep elem push x) (sepBy sep' elem' push' x') := by
  refine rel_orElse (rel_bind helem fun v v' hv => rel_iterate (fun y y' hy => ?_) ?_) (rel_pure hx)
  · exact rel_map (rel_bind hsep fun _ _ _ => helem) fun v v' hv => hv ▸ hpush y y' v hy
  · exact hv ▸ hpush x x' v hx

/-- Repetitions that push onto the same. -/
theorem rel_sepBy_same {sep : Attempt σ α} {sep' : Attempt τ β} {elem : Attempt σ γ}
    {elem' : Attempt τ γ} {ε : Type u} (push : ε → γ → ε) (x : ε) (hsep : Rel R R S sep sep')
    (helem : Rel R R Eq elem elem') : Rel R R Eq (sepBy sep elem push x) (sepBy sep' elem' push x) :=
  rel_sepBy hsep helem (fun _ _ _ h => by rw [h]) rfl

end

/-! ### Attempts on a set of states -/

/-- Every success from `D` is in `D'`. -/
def Keeps (D D' : σ → Prop) (p : Attempt σ α) : Prop :=
  ∀ s s' a, D s → p s = some (some (s', a)) → D' s'

/-- `p` has a result on every state of `D`. -/
def Total (D : σ → Prop) (p : Attempt σ α) : Prop := ∀ s, D s → (p s).isSome

def NeverFails (p : Attempt σ α) : Prop := ∀ s, p s ≠ some none

section
variable {D D' D'' : σ → Prop} {p q : Attempt σ α} {k : α → Attempt σ β}

/-- The invariant rule: `Keeps` is `Rel` between an attempt and itself. -/
theorem keeps_iff_rel :
    Keeps D D' p ↔ Rel (fun s t => s = t ∧ D s) (fun s t => s = t ∧ D' s) Eq p p := by
  constructor
  · rintro h s _ ⟨rfl, hs⟩
    rcases hp : p s with _ | _ | ⟨s', a⟩
    · exact .none
    · exact .some .none
    · exact .some (.some ⟨⟨rfl, h s s' a hs hp⟩, rfl⟩)
  · intro h s s' a hs hp
    have := h s s ⟨rfl, hs⟩
    rw [hp] at this
    cases this with
    | some h => cases h with
      | some h => exact h.1.2

/-- Two attempts with the same outcomes on `D`, which they do not leave. -/
theorem rel_eq_iff : Rel (fun s t => s = t ∧ D s) (fun s t => s = t ∧ D' s) Eq p q ↔
    (∀ s, D s → p s = q s) ∧ Keeps D D' p := by
  constructor
  · intro h
    have heq : ∀ s, D s → p s = q s := fun s hs => by
      refine Loop.rel_eq.1 (Loop.rel_mono (fun x y hxy => Loop.rel_eq.1 ?_) (h s s ⟨rfl, hs⟩))
      exact Loop.rel_mono (fun u v huv => Prod.ext huv.1.1 huv.2) hxy
    refine ⟨heq, fun s s' a hs hp => ?_⟩
    have := h s s ⟨rfl, hs⟩
    rw [← heq s hs, hp] at this
    cases this with
    | some h => cases h with
      | some h => exact h.1.2
  · rintro ⟨heq, hk⟩ s _ ⟨rfl, hs⟩
    rw [← heq s hs]
    exact keeps_iff_rel.1 hk s s ⟨rfl, hs⟩

theorem Keeps.bind (hp : Keeps D D' p) (hk : ∀ a, Keeps D' D'' (k a)) :
    Keeps D D'' (bind p k) := by
  intro s s'' b hs h
  obtain ⟨s', a, h₁, h₂⟩ := bind_eq_some h
  exact hk a s' s'' b (hp s s' a hs h₁) h₂

theorem Keeps.orElse (hp : Keeps D D' p) (hq : Keeps D D' q) : Keeps D D' (orElse p q) :=
  keeps_iff_rel.2 (rel_orElse (keeps_iff_rel.1 hp) (keeps_iff_rel.1 hq))

theorem Keeps.map (hp : Keeps D D' p) (f : α → β) : Keeps D D' (map f p) :=
  hp.bind fun _ s _ _ hs h => by cases h; exact hs

theorem Total.bind (hp : Total D p) (hpk : Keeps D D' p) (hk : ∀ a, Total D' (k a)) :
    Total D (bind p k) := by
  intro s hs
  rcases h : p s with _ | _ | ⟨s', a⟩
  · have := hp s hs
    rw [h] at this; cases this
  · rw [bind_fail h]; rfl
  · rw [bind_some h]; exact hk a s' (hpk s s' a hs h)

theorem Total.orElse (hp : Total D p) (hq : Total D q) : Total D (orElse p q) := by
  intro s hs
  rcases h : p s with _ | _ | x
  · have := hp s hs
    rw [h] at this; cases this
  · rw [orElse_fail h]; exact hq s hs
  · rw [orElse_some h]; rfl

theorem total_pure (a : α) : Total D (pure a : Attempt σ α) := fun _ _ => rfl

theorem Total.map (hp : Total D p) (f : α → β) : Total D (map f p) := by
  intro s hs
  rw [map_apply, Option.isSome_map]; exact hp s hs

/-- Repetition ends when every round that succeeds makes `μ` smaller. -/
theorem Total.iterate {k : α → Attempt σ α} (μ : σ → Nat) (hk : ∀ a, Total D (k a))
    (hd : ∀ a s s' a', D s → k a s = some (some (s', a')) → D s' ∧ μ s' < μ s) (a : α) :
    Total D (iterate k a) := by
  intro s hs
  have hl : (Loop.loop (iterateRound k) (s, a)).isSome := by
    refine Loop.isSome_loop (I := fun x => D x.1) (fun x => μ x.1) (fun x hx => ?_)
      (fun x y hx h => ?_) hs
    · obtain ⟨y, hy⟩ := Option.isSome_iff_exists.1 (hk x.2 x.1 hx)
      cases y <;> simp [iterateRound, hy]
    · rcases hr : k x.2 x.1 with _ | _ | y' <;> simp only [iterateRound, hr] at h <;> cases h
      exact hd _ _ _ _ hx hr
  obtain ⟨x, hx⟩ := Option.isSome_iff_exists.1 hl
  simp [Attempt.iterate, hx]

/-- Repetition with a separator ends when the separator makes `μ` smaller, and the element not
greater. -/
theorem Total.sepBy {sep : Attempt σ β} {elem : Attempt σ α} {push : γ → α → γ} (μ : σ → Nat)
    (hsep : Total D sep) (helem : Total D elem)
    (hs : ∀ s s' b, D s → sep s = some (some (s', b)) → D s' ∧ μ s' < μ s)
    (he : ∀ s s' a, D s → elem s = some (some (s', a)) → D s' ∧ μ s' ≤ μ s) (x : γ) :
    Total D (sepBy sep elem push x) := by
  have hse : Keeps D D sep := fun s s' b hD h => (hs s s' b hD h).1
  have hel : Keeps D D elem := fun s s' a hD h => (he s s' a hD h).1
  refine (helem.bind hel fun a => ?_).orElse (total_pure x)
  refine Total.iterate μ (fun y => (hsep.bind hse fun _ => helem).map (push y)) ?_ (push x a)
  intro y s s' z hD h
  obtain ⟨s₁, v, h₁, hz⟩ := bind_eq_some h
  cases hz
  obtain ⟨s₂, b, h₂, h₃⟩ := bind_eq_some h₁
  obtain ⟨hD₂, hlt⟩ := hs s s₂ b hD h₂
  obtain ⟨hD', hle⟩ := he s₂ s' v hD₂ h₃
  exact ⟨hD', by omega⟩

theorem NeverFails.bind (hp : NeverFails p) (hk : ∀ a, NeverFails (k a)) : NeverFails (bind p k) := by
  intro s h
  rcases hs : p s with _ | _ | ⟨s', a⟩
  · rw [bind_none hs] at h; cases h
  · exact hp s hs
  · rw [bind_some hs] at h; exact hk a s' h

theorem NeverFails.orElse_left (hp : NeverFails p) : NeverFails (orElse p q) := by
  intro s h
  rcases hs : p s with _ | _ | x
  · rw [orElse_none hs] at h; cases h
  · exact hp s hs
  · rw [orElse_some hs] at h; cases h

theorem NeverFails.orElse_right (hq : NeverFails q) : NeverFails (orElse p q) := by
  intro s h
  rcases hs : p s with _ | _ | x
  · rw [orElse_none hs] at h; cases h
  · rw [orElse_fail hs] at h; exact hq s h
  · rw [orElse_some hs] at h; cases h

theorem neverFails_pure (a : α) : NeverFails (pure a : Attempt σ α) := fun _ h => by cases h

theorem NeverFails.map (hp : NeverFails p) (f : α → β) : NeverFails (map f p) :=
  hp.bind fun _ => neverFails_pure _

theorem neverFails_peek (p : Attempt σ α) : NeverFails (peek p) := by
  intro s h
  obtain ⟨x, -, hx⟩ := Option.bind_eq_some_iff.1 h
  cases hx

theorem neverFails_iterate (k : α → Attempt σ α) (a : α) : NeverFails (iterate k a) := by
  intro s h
  obtain ⟨x, -, hx⟩ := Option.bind_eq_some_iff.1 h
  cases hx

theorem neverFails_sepBy (sep : Attempt σ α) (elem : Attempt σ β) (push : γ → β → γ) (x : γ) :
    NeverFails (sepBy sep elem push x) := .orElse_right (neverFails_pure x)

/-- A repetition of what never fails never ends. -/
theorem iterate_of_neverFails {k : α → Attempt σ α} (hk : ∀ a, NeverFails (k a)) (a : α) (s : σ) :
    iterate k a s = none := by
  rcases h : iterate k a s with _ | _ | ⟨s', a'⟩
  · rfl
  · exact absurd h (neverFails_iterate k a s)
  · exact (iterate_induct (motive := fun _ _ _ _ => False) (fun s a hs => hk a s hs)
      (fun _ _ _ _ _ _ _ _ ih => ih) h).elim

end

/-! ### Approximation -/

/-- Whatever `p` returns from a state of `D`, `q` returns too, and a success leads to `D'`. -/
def Approx (D D' : σ → Prop) (p q : Attempt σ α) : Prop :=
  ∀ s o, D s → p s = some o → q s = some o ∧ ∀ x, o = some x → D' x.1

section
variable {D D' D'' : σ → Prop} {p q : Attempt σ α} {k l : α → Attempt σ β}

theorem Keeps.approx (h : Keeps D D' p) : Approx D D' p p := by
  intro s o hs hp
  refine ⟨hp, ?_⟩
  rintro ⟨s', a⟩ rfl
  exact h s s' a hs hp

theorem Approx.mono {E E' : σ → Prop} (h : Approx D D' p q) (hE : ∀ s, E s → D s)
    (hE' : ∀ s, D' s → E' s) : Approx E E' p q := by
  intro s o hs hp
  obtain ⟨hq, hD'⟩ := h s o (hE s hs) hp
  exact ⟨hq, fun x hx => hE' _ (hD' x hx)⟩

theorem Approx.bind (h : Approx D D' p q) (hk : ∀ a, Approx D' D'' (k a) (l a)) :
    Approx D D'' (bind p k) (bind q l) := by
  intro s o hs ho
  rcases hp : p s with _ | _ | ⟨s', a⟩
  · rw [bind_none hp] at ho; cases ho
  · rw [bind_fail hp] at ho
    cases ho
    exact ⟨bind_fail (h s _ hs hp).1, fun x hx => by cases hx⟩
  · obtain ⟨hq, hD'⟩ := h s _ hs hp
    rw [bind_some hp] at ho
    rw [bind_some hq]
    exact hk a s' o (hD' _ rfl) ho

theorem approx_pure (a : α) : Approx D D (pure a) (pure a) :=
  Keeps.approx fun s s' b hs h => by cases h; exact hs

theorem Approx.map (h : Approx D D' p q) (f : α → β) : Approx D D' (map f p) (map f q) :=
  h.bind fun a => approx_pure (f a)

theorem Approx.orElse {p' q' : Attempt σ α} (h : Approx D D' p q) (h' : Approx D D' p' q') :
    Approx D D' (orElse p p') (orElse q q') := by
  intro s o hs ho
  rcases hp : p s with _ | _ | x
  · rw [orElse_none hp] at ho; cases ho
  · rw [orElse_fail hp] at ho
    rw [orElse_fail (h s _ hs hp).1]
    exact h' s o hs ho
  · rw [orElse_some hp] at ho
    cases ho
    obtain ⟨hq, hD'⟩ := h s _ hs hp
    exact ⟨orElse_some hq, hD'⟩

theorem Approx.iterate {k l : α → Attempt σ α} (hk : ∀ a, Approx D D (k a) (l a)) (a : α) :
    Approx D D (iterate k a) (iterate l a) := by
  intro s o hs ho
  rcases o with _ | ⟨s', a'⟩
  · exact absurd ho (neverFails_iterate k a s)
  have hrun : D s → Attempt.iterate l a s = some (some (s', a')) ∧ D s' := by
    refine iterate_induct (motive := fun s a s' a' =>
      D s → Attempt.iterate l a s = some (some (s', a')) ∧ D s')
      (fun s a hstop hs => ?_) (fun s a s₁ a₁ s' a' hstep _ ih hs => ?_) ho
    · exact ⟨iterate_fail (hk a s _ hs hstop).1, hs⟩
    · obtain ⟨hl, hD⟩ := hk a s _ hs hstep
      obtain ⟨hrest, hs'⟩ := ih (hD _ rfl)
      exact ⟨by rw [iterate_some hl, hrest], hs'⟩
  obtain ⟨hl, hs'⟩ := hrun hs
  exact ⟨hl, fun x hx => by cases hx; exact hs'⟩

theorem Approx.sepBy {sep sep' : Attempt σ β} {elem elem' : Attempt σ α} {push : γ → α → γ}
    (hsep : Approx D D sep sep') (helem : Approx D D elem elem') (x : γ) :
    Approx D D (sepBy sep elem push x) (sepBy sep' elem' push x) := by
  refine (helem.bind fun a => ?_).orElse (approx_pure x)
  exact Approx.iterate (fun y => (hsep.bind fun _ => helem).map (push y)) (push x a)

end

/-! ### The greedy run -/

/-- `p` succeeds repeatedly from `s` with the values `as`, and fails in the state `s'` it leaves
last. -/
inductive Greedy (p : Attempt σ α) : σ → List α → σ → Prop
  | stop {s : σ} (h : p s = some none) : Greedy p s [] s
  | step {s s' s'' : σ} {a : α} {as : List α} (h : p s = some (some (s', a)))
      (hs : Greedy p s' as s'') : Greedy p s (a :: as) s''

/-- Repeating `p` with an accumulator folds the accumulator over the greedy run. -/
theorem iterate_eq_some_iff {p : Attempt σ α} (op : β → α → β) {b b' : β} {s s' : σ} :
    iterate (fun b => map (op b) p) b s = some (some (s', b')) ↔
      ∃ as, Greedy p s as s' ∧ b' = as.foldl op b := by
  constructor
  · intro h
    refine iterate_induct (motive := fun s b s' b' => ∃ as, Greedy p s as s' ∧ b' = as.foldl op b)
      (fun s b h => ?_) (fun s b s₁ b₁ s' b' h _ ih => ?_) h
    · rw [map_apply] at h
      rcases hp : p s with _ | _ | x <;> rw [hp] at h <;> cases h
      exact ⟨[], .stop hp, rfl⟩
    · rw [map_apply] at h
      rcases hp : p s with _ | _ | x <;> rw [hp] at h <;> cases h
      obtain ⟨as, hrun, rfl⟩ := ih
      exact ⟨_ :: as, .step hp hrun, rfl⟩
  · rintro ⟨as, hrun, rfl⟩
    induction hrun generalizing b with
    | stop h => exact iterate_fail (by rw [map_apply, h]; rfl)
    | step h _ ih => rw [iterate_some (by rw [map_apply, h]; rfl), ih]; rfl

/-- The greedy list of elements from a state: none when there is no first one, else the first one and
the greedy run of separator and element after it. A separator that no element follows is part of the
failed round, so the last state is the one after the last element. -/
inductive Elements (sep : Attempt σ α) (elem : Attempt σ β) : σ → List β → σ → Prop
  | nil {s : σ} (h : elem s = some none) : Elements sep elem s [] s
  | cons {s s₁ s' : σ} {b : β} {bs : List β} (h : elem s = some (some (s₁, b)))
      (hs : Greedy (bind sep fun _ => elem) s₁ bs s') : Elements sep elem s (b :: bs) s'

theorem sepBy_eq_some_iff {sep : Attempt σ α} {elem : Attempt σ β} {push : γ → β → γ} {x y : γ}
    {s s' : σ} : sepBy sep elem push x s = some (some (s', y)) ↔
      ∃ bs, Elements sep elem s bs s' ∧ y = bs.foldl push x := by
  unfold sepBy separated
  rcases he : elem s with _ | _ | ⟨s₁, b⟩
  · rw [orElse_none (bind_none he)]
    refine ⟨fun h => (by cases h), fun ⟨bs, h, _⟩ => ?_⟩
    cases h with
    | nil h => rw [he] at h; cases h
    | cons h _ => rw [he] at h; cases h
  · rw [orElse_fail (bind_fail he)]
    constructor
    · intro h; cases h; exact ⟨[], .nil he, rfl⟩
    · rintro ⟨bs, h, rfl⟩
      cases h with
      | nil _ => rfl
      | cons h _ => rw [he] at h; cases h
  · have hb := bind_some (k := fun b => iterate (fun x => map (push x) (bind sep fun _ => elem))
      (push x b)) he
    rw [orElse_of_ne_fail (by rw [hb]; exact neverFails_iterate _ _ _), hb, iterate_eq_some_iff]
    constructor
    · rintro ⟨bs, hs, rfl⟩; exact ⟨b :: bs, .cons he hs, rfl⟩
    · rintro ⟨bs, h, rfl⟩
      cases h with
      | nil h => rw [he] at h; cases h
      | cons h hs => rw [he] at h; cases h; exact ⟨_, hs, rfl⟩

/-- `p` so often, where it has to succeed each time. -/
def times (p : Attempt σ α) : Nat → Attempt σ (List α)
  | 0 => pure []
  | n + 1 => bind p fun a => map (a :: ·) (times p n)

/-- So many successes are the first ones of the greedy run, and the others follow. -/
theorem Greedy.times {p : Attempt σ α} {s s' : σ} {as : List α} (h : Greedy p s as s') {n : Nat}
    (hn : n ≤ as.length) :
    ∃ t, Attempt.times p n s = some (some (t, as.take n)) ∧ Greedy p t (as.drop n) s' := by
  induction n generalizing s as with
  | zero => exact ⟨s, rfl, h⟩
  | succ n ih =>
    cases h with
    | stop _ => cases hn
    | step ha h =>
      obtain ⟨t, ht, hrest⟩ := ih h (Nat.le_of_succ_le_succ hn)
      refine ⟨t, ?_, hrest⟩
      rw [Attempt.times, bind_some ha, map_apply, ht]
      rfl

theorem Greedy.times_fails {p : Attempt σ α} {s s' : σ} {as : List α} (h : Greedy p s as s') {n : Nat}
    (hn : as.length < n) : Attempt.times p n s = some none := by
  induction h generalizing n with
  | stop hp =>
    obtain ⟨n, rfl⟩ := Nat.exists_eq_add_one.2 hn
    rw [Attempt.times, bind_fail hp]
  | step ha _ ih =>
    obtain ⟨n, rfl⟩ := Nat.exists_eq_add_one.2 (Nat.zero_lt_of_lt hn)
    rw [Attempt.times, bind_some ha, map_apply, ih (Nat.lt_of_succ_lt_succ hn)]
    rfl

theorem rel_eq_states {p q : Attempt σ α} : Rel Eq Eq Eq p q ↔ p = q := by
  constructor
  · intro h
    funext s
    refine Loop.rel_eq.1 (Loop.rel_mono (fun x y hxy => Loop.rel_eq.1 ?_) (h s s rfl))
    exact Loop.rel_mono (fun u v huv => Prod.ext huv.1 huv.2) hxy
  · rintro rfl s _ rfl
    refine Loop.rel_mono (fun x y hxy => ?_) (Loop.rel_eq.2 rfl)
    subst hxy
    exact Loop.rel_mono (fun u v huv => ⟨congrArg _ huv, congrArg _ huv⟩) (Loop.rel_eq.2 rfl)

/-- Whatever the elements are pushed onto, it is the fold over the list of them. -/
theorem sepBy_eq_map (sep : Attempt σ α) (elem : Attempt σ β) (push : γ → β → γ) (x : γ) :
    sepBy sep elem push x =
      map (List.foldl push x) (sepBy sep elem (fun bs b => bs ++ [b]) []) := by
  have hself : ∀ {δ : Type u} (p : Attempt σ δ), Rel Eq Eq Eq p p := fun p => rel_eq_states.2 rfl
  have hrel : Rel Eq Eq (fun y bs => y = bs.foldl push x) (sepBy sep elem push x)
      (sepBy sep elem (fun bs b => bs ++ [b]) []) :=
    rel_sepBy (hself sep) (hself elem) (fun y bs v hy => by rw [hy, List.foldl_append]; rfl) rfl
  have hmap : Rel Eq Eq Eq (map id (sepBy sep elem push x))
      (map (List.foldl push x) (sepBy sep elem (fun bs b => bs ++ [b]) [])) :=
    rel_map hrel fun y bs hy => hy
  rw [← rel_eq_states.1 hmap]
  exact (map_id _).symm

end Attempt
