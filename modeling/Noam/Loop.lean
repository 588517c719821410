import Mathlib.Data.Nat.Find
import Mathlib.Data.Option.Basic
import Mathlib.Order.Basic

/-!
# Loops that need not end

A computation that may run forever is an `Option`: `none` is "no result". `loop round s` repeats
`round` from `s` until it is done. The rules below are the ones a proof about a loop needs: what
holds when it is done (`loop_induct`), when it is done at all (`isSome_loop`), and that two loops
whose rounds stay in step end alike (`rel_loop`).
-/

namespace Loop
universe u
variable {σ τ α β γ : Type u}

/-- What one round of a loop decides: stop with a value, or go on from a new state. -/
inductive Round (σ β : Type u) where
  | done (b : β)
  | next (s : σ)

def loop (round : σ → Option (Round σ β)) (s : σ) : Option β := do
  match ← round s with
  | .done b => return b
  -- a plain `loop round s'` would record its place in this file in the definition
  | .next s' => (by apply loop : (σ → Option (Round σ β)) → σ → Option β) round s'
partial_fixpoint

theorem loop_done {k : σ → Option (Round σ β)} {s : σ} {b : β} (h : k s = some (.done b)) :
    loop k s = some b := by
  rw [loop, h]; rfl

theorem loop_next {k : σ → Option (Round σ β)} {s s' : σ} (h : k s = some (.next s')) :
    loop k s = loop k s' := by
  rw [loop, h]; rfl

theorem loop_none {k : σ → Option (Round σ β)} {s : σ} (h : k s = none) :
    loop k s = none := by
  rw [loop, h]; rfl

/-- Induction over the rounds of a loop that is done. -/
theorem loop_induct {k : σ → Option (Round σ β)} {motive : σ → β → Prop}
    (done : ∀ s b, k s = some (.done b) → motive s b)
    (next : ∀ s s' b, k s = some (.next s') → motive s' b → motive s b)
    {s : σ} {b : β} (h : loop k s = some b) : motive s b := by
  refine loop.partial_correctness k motive (fun f ih s b hb => ?_) s b h
  obtain ⟨r, hr, hb⟩ := Option.bind_eq_some_iff.1 hb
  cases r with
  | done b' => obtain rfl := Option.some.inj hb; exact done s _ hr
  | next s' => exact next s s' b hr (ih s' b hb)

/-- A loop ends when every round ends and the rounds that go on make `μ` smaller, as long as `I`
holds. -/
theorem isSome_loop {k : σ → Option (Round σ β)} {I : σ → Prop} (μ : σ → Nat)
    (total : ∀ s, I s → (k s).isSome)
    (next : ∀ s s', I s → k s = some (.next s') → I s' ∧ μ s' < μ s) {s : σ} (hs : I s) :
    (loop k s).isSome := by
  induction hn : μ s using Nat.strong_induction_on generalizing s with
  | _ n ih =>
    obtain ⟨r, hr⟩ := Option.isSome_iff_exists.1 (total s hs)
    cases r with
    | done b => simp [loop_done hr]
    | next s' =>
      obtain ⟨hs', hlt⟩ := next s s' hs hr
      rw [loop_next hr]
      exact ih _ (hn ▸ hlt) hs' rfl

/-- A loop never ends when `I` holds and every round goes on from it to `I` again. -/
theorem loop_diverges {k : σ → Option (Round σ β)} {I : σ → Prop}
    (h : ∀ s, I s → ∃ s', k s = some (.next s') ∧ I s') {s : σ} (hs : I s) : loop k s = none := by
  rcases hl : loop k s with _ | b
  · rfl
  · refine (loop_induct (motive := fun s _ => I s → False) (fun s b hr hI => ?_)
      (fun s s' b hr ih hI => ?_) hl hs).elim
    · obtain ⟨s', hr', -⟩ := h s hI
      rw [hr] at hr'; cases hr'
    · obtain ⟨s'', hr', hI'⟩ := h s hI
      rw [hr] at hr'; cases hr'
      exact ih hI'

/-- Two rounds that decide alike: both stop with related values, or both go on from related
states. -/
inductive Round.Rel (R : σ → τ → Prop) (Q : β → γ → Prop) : Round σ β → Round τ γ → Prop
  | done {b c} (h : Q b c) : Round.Rel R Q (.done b) (.done c)
  | next {s t} (h : R s t) : Round.Rel R Q (.next s) (.next t)

theorem rel_loop_left {k : σ → Option (Round σ β)} {l : τ → Option (Round τ γ)}
    {R : σ → τ → Prop} {Q : β → γ → Prop}
    (h : ∀ s t, R s t → Option.Rel (Round.Rel R Q) (k s) (l t)) {s : σ} {b : β}
    (hb : loop k s = some b) : ∀ t, R s t → ∃ c, loop l t = some c ∧ Q b c := by
  refine loop_induct (motive := fun s b => ∀ t, R s t → ∃ c, loop l t = some c ∧ Q b c)
    (fun s b hr t hst => ?_) (fun s s' b hr ih t hst => ?_) hb
  · have := h s t hst
    rw [hr] at this
    rcases ht : l t with _ | r <;> rw [ht] at this
    · cases this
    · cases this with
      | some h' => cases h' with
        | done hq => exact ⟨_, loop_done ht, hq⟩
  · have := h s t hst
    rw [hr] at this
    rcases ht : l t with _ | r <;> rw [ht] at this
    · cases this
    · cases this with
      | some h' => cases h' with
        | next hst' => rw [loop_next ht]; exact ih _ hst'

theorem Round.Rel.swap {R : σ → τ → Prop} {Q : β → γ → Prop} {x : Round σ β} {y : Round τ γ}
    (h : Round.Rel R Q x y) : Round.Rel (fun t s => R s t) (fun c b => Q b c) y x := by
  cases h with
  | done h => exact .done h
  | next h => exact .next h

theorem rel_swap {R : α → β → Prop} {x : Option α} {y : Option β} (h : Option.Rel R x y) :
    Option.Rel (fun b a => R a b) y x := by
  cases h with
  | some h => exact .some h
  | none => exact .none

theorem rel_mono {R R' : α → β → Prop} (hR : ∀ a b, R a b → R' a b) {x : Option α} {y : Option β}
    (h : Option.Rel R x y) : Option.Rel R' x y := by
  cases h with
  | some h => exact .some (hR _ _ h)
  | none => exact .none

theorem rel_eq {x y : Option α} : Option.Rel Eq x y ↔ x = y := by
  constructor
  · intro h; cases h with
    | some h => rw [h]
    | none => rfl
  · rintro rfl; cases x <;> constructor; rfl

theorem rel_bind {R : α → β → Prop} {Q : γ → σ → Prop} {x : Option α} {y : Option β}
    {f : α → Option γ} {g : β → Option σ} (h : Option.Rel R x y)
    (hfg : ∀ a b, R a b → Option.Rel Q (f a) (g b)) : Option.Rel Q (x >>= f) (y >>= g) := by
  cases h with
  | some h => exact hfg _ _ h
  | none => exact .none

theorem rel_map {R : α → β → Prop} {Q : γ → σ → Prop} {x : Option α} {y : Option β}
    {f : α → γ} {g : β → σ} (h : Option.Rel R x y) (hfg : ∀ a b, R a b → Q (f a) (g b)) :
    Option.Rel Q (x.map f) (y.map g) := by
  cases h with
  | some h => exact .some (hfg _ _ h)
  | none => exact .none

/-- Loops whose rounds decide alike on related states end alike: with related values, or neither
of them. -/
theorem rel_loop {k : σ → Option (Round σ β)} {l : τ → Option (Round τ γ)}
    {R : σ → τ → Prop} {Q : β → γ → Prop}
    (h : ∀ s t, R s t → Option.Rel (Round.Rel R Q) (k s) (l t)) {s : σ} {t : τ}
    (hst : R s t) : Option.Rel Q (loop k s) (loop l t) := by
  rcases hs : loop k s with _ | b
  · rcases ht : loop l t with _ | c
    · exact .none
    · obtain ⟨b, hb, -⟩ := rel_loop_left (R := fun t s => R s t) (Q := fun c b => Q b c)
        (fun t s hst => rel_mono (fun _ _ h => h.swap) (rel_swap (h s t hst))) ht s hst
      rw [hs] at hb; cases hb
  · obtain ⟨c, hc, hq⟩ := rel_loop_left h hs t hst
    rw [hc]; exact .some hq

/-! ### What a loop looks at -/

section
variable {ι : Type u} {k k' : σ → Option (Round σ β)} {log : σ → List ι} {I : σ → Prop} {P : ι → Prop}
variable {s : σ} {b : β} {l l' : List ι}

/-- One round, which also lists what `log` says of the state that it starts from. -/
def loggedRound (k : σ → Option (Round σ β)) (log : σ → List ι) (x : σ × List ι) :
    Option (Round (σ × List ι) (β × List ι)) := do
  match ← k x.1 with
  | .done b => return .done (b, x.2 ++ log x.1)
  | .next s => return .next (s, x.2 ++ log x.1)

/-- A loop, and what `log` says of the states of its rounds. -/
def logged (k : σ → Option (Round σ β)) (log : σ → List ι) (s : σ) : Option (β × List ι) :=
  loop (loggedRound k log) (s, [])

theorem loggedRound_done {x : σ × List ι} (h : k x.1 = some (.done b)) :
    loggedRound k log x = some (.done (b, x.2 ++ log x.1)) := by
  rw [loggedRound, h]; rfl

theorem loggedRound_next {x : σ × List ι} (h : k x.1 = some (.next s)) :
    loggedRound k log x = some (.next (s, x.2 ++ log x.1)) := by
  rw [loggedRound, h]; rfl

theorem map_fst_logged : (logged k log s).map Prod.fst = loop k s := by
  have hrel : Option.Rel (fun x b => x.1 = b) (logged k log s) (loop k s) := by
    refine rel_loop (R := fun x s => x.1 = s) (fun x s hx => ?_) rfl
    subst hx
    rcases hk : k x.1 with _ | _ | s'
    · rw [loggedRound, hk]; exact .none
    · rw [loggedRound_done hk]; exact .some (.done rfl)
    · rw [loggedRound_next hk]; exact .some (.next rfl)
  have hmap := rel_map (f := Prod.fst) (g := id) hrel fun _ _ h => h
  rw [Option.map_id] at hmap
  exact rel_eq.1 hmap

/-- What is logged while an invariant holds. -/
theorem forall_mem_logged (hlog : ∀ s, I s → ∀ i ∈ log s, P i)
    (hnext : ∀ s s', I s → k s = some (.next s') → I s') (hs : I s)
    (h : logged k log s = some (b, l)) : ∀ i ∈ l, P i := by
  refine loop_induct (k := loggedRound k log)
    (motive := fun x y => I x.1 → (∀ i ∈ x.2, P i) → ∀ i ∈ y.2, P i)
    (fun x y hr hI hx => ?_) (fun x x' y hr ih hI hx => ?_) h hs (fun i hi => by cases hi)
  all_goals
    have hmore : ∀ i ∈ x.2 ++ log x.1, P i := fun i hi =>
      (List.mem_append.1 hi).elim (hx i) (hlog x.1 hI i)
    rcases hk : k x.1 with _ | _ | s' <;>
      simp only [loggedRound, hk, Option.bind_eq_bind, Option.bind_none, Option.bind_some,
        Option.pure_def] at hr <;> cases hr
  · exact hmore
  · exact ih (hnext _ _ hI hk) hmore

/-- Rounds that look only at what is logged do the same wherever that is the same. -/
theorem loop_eq_of_logged (hk : ∀ s, (∀ i ∈ log s, P i) → k' s = k s)
    (h : logged k log s = some (b, l)) (hl : ∀ i ∈ l, P i) : loop k' s = some b := by
  have hrun : (∀ i ∈ ([] : List ι), i ∈ l) ∧ loop k' s = some b := by
    refine loop_induct (k := loggedRound k log)
      (motive := fun x y => (∀ i ∈ y.2, P i) → (∀ i ∈ x.2, i ∈ y.2) ∧ loop k' x.1 = some y.1)
      (fun x y hr hy => ?_) (fun x x' y hr ih hy => ?_) h hl
    all_goals
      rcases hx : k x.1 with _ | _ | s' <;>
        simp only [loggedRound, hx, Option.bind_eq_bind, Option.bind_none, Option.bind_some,
          Option.pure_def] at hr <;> cases hr
    · have heq := hk x.1 fun i hi => hy i (List.mem_append_right _ hi)
      exact ⟨fun i hi => List.mem_append_left _ hi, loop_done (heq.trans hx)⟩
    · obtain ⟨hsub, hrest⟩ := ih hy
      have heq := hk x.1 fun i hi => hy i (hsub i (List.mem_append_right _ hi))
      exact ⟨fun i hi => hsub i (List.mem_append_left _ hi), by rw [loop_next (heq.trans hx), hrest]⟩
  exact hrun.2

end

/-! ### Unbounded search -/

section
variable {β γ : Type} {f g : Nat → Option β}

/-- One probe of `search`: stop at a result of `f n`, else go on to `n + 1`. -/
def probe (f : Nat → Option β) (n : Nat) : Option (Round Nat β) :=
  match f n with
  | some b => some (.done b)
  | none => some (.next (n + 1))

/-- The first result among `f 0, f 1, …`. -/
def search (f : Nat → Option β) : Option β :=
  loop (probe f) 0

theorem probe_some {n : Nat} {b : β} (h : f n = some b) : probe f n = some (.done b) := by
  simp [probe, h]

theorem probe_none {n : Nat} (h : f n = none) : probe f n = some (.next (n + 1)) := by
  simp [probe, h]

theorem loop_probe_skip {n m : Nat} (hnm : n ≤ m) (h : ∀ k, n ≤ k → k < m → f k = none) :
    loop (probe f) n = loop (probe f) m := by
  induction m, hnm using Nat.le_induction with
  | base => rfl
  | succ m hm ih =>
    rw [ih fun k hk hkm => h k hk (by omega), loop_next (probe_none (h m hm (by omega)))]

/-- `search f` is the result at the least index that has one. -/
theorem search_eq_some_iff {b : β} :
    search f = some b ↔ ∃ n, f n = some b ∧ ∀ k < n, f k = none := by
  constructor
  · intro h
    -- from the start of the loop on, no earlier index has a result
    suffices ∃ n, 0 ≤ n ∧ f n = some b ∧ ∀ k, 0 ≤ k → k < n → f k = none by
      obtain ⟨n, -, hn, hlt⟩ := this
      exact ⟨n, hn, fun k hk => hlt k (Nat.zero_le k) hk⟩
    refine loop_induct (k := probe f)
      (motive := fun m b => ∃ n, m ≤ n ∧ f n = some b ∧ ∀ k, m ≤ k → k < n → f k = none)
      (fun m b hr => ?_) (fun m m' b hr ih => ?_) h
    · rcases hm : f m with _ | c
      · rw [probe_none hm] at hr; cases hr
      · rw [probe_some hm] at hr; cases hr
        exact ⟨m, le_refl m, hm, fun k hk hkm => absurd hk (by omega)⟩
    · rcases hm : f m with _ | c
      · rw [probe_none hm] at hr; cases hr
        obtain ⟨n, hmn, hn, hlt⟩ := ih
        refine ⟨n, by omega, hn, fun k hk hkn => ?_⟩
        rcases Nat.eq_or_lt_of_le hk with rfl | hk
        · exact hm
        · exact hlt k hk hkn
      · rw [probe_some hm] at hr; cases hr
  · rintro ⟨n, hn, hlt⟩
    rw [search, loop_probe_skip (Nat.zero_le n) fun k _ hk => hlt k hk, loop_done (probe_some hn)]

/-- Results that persist from one index to the next are found by `search`. -/
theorem search_eq_some_of_mono (hf : ∀ n b, f n = some b → f (n + 1) = some b) {b : β} :
    search f = some b ↔ ∃ n, f n = some b := by
  rw [search_eq_some_iff]
  refine ⟨fun ⟨n, hn, _⟩ => ⟨n, hn⟩, fun ⟨n, hn⟩ => ?_⟩
  have up : ∀ m k c, f m = some c → f (m + k) = some c := by
    intro m k c hm
    induction k with
    | zero => exact hm
    | succ k ih => exact hf _ _ ih
  have hex : ∃ n, (f n).isSome := ⟨n, by simp [hn]⟩
  obtain ⟨c, hc⟩ := Option.isSome_iff_exists.1 (Nat.find_spec hex)
  have hle : Nat.find hex ≤ n := Nat.find_min' hex (by simp [hn])
  obtain ⟨k, rfl⟩ := Nat.exists_eq_add_of_le hle
  have := up _ k _ hc
  rw [hn] at this; cases this
  exact ⟨_, hc, fun k hk => by simpa using Nat.find_min hex hk⟩

theorem rel_search {g : Nat → Option γ} {R : β → γ → Prop} (h : ∀ n, Option.Rel R (f n) (g n)) :
    Option.Rel R (search f) (search g) := by
  refine rel_loop (R := Eq) (fun n m hnm => ?_) rfl
  subst hnm
  have hn := h n
  simp only [probe]
  rcases hf : f n with _ | b <;> rcases hg : g n with _ | c <;> rw [hf, hg] at hn
  · exact .some (.next rfl)
  · cases hn
  · cases hn
  · cases hn with
    | some hR => exact .some (.done hR)

end

end Loop
