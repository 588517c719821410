import Noam.Attempt

/-!
# Limits of computations

`Limit f x`: the computations `f 0, f 1, …` have ever more results, and `x` has the results that one of
them has. Everything that is built from computations by sequencing, choice, loops and search is
continuous: it has the limit that is built from the limits. So what a computation returns it returns at
some finite stage, and the least fixpoint of whatever is built so is the limit of its iterates.
-/

namespace Loop
universe u
variable {σ β γ : Type u} {f g : Nat → Option β} {x y : Option β}

/-- `x` has every result that `f` has from some index on. -/
structure Limit (f : Nat → Option β) (x : Option β) : Prop where
  mono : ∀ n b, f n = some b → f (n + 1) = some b
  bound : ∀ n b, f n = some b → x = some b
  reached : ∀ b, x = some b → ∃ n, f n = some b

namespace Limit

theorem le {n m : Nat} (h : Limit f x) (hnm : n ≤ m) {b : β} (hb : f n = some b) : f m = some b := by
  induction m, hnm using Nat.le_induction with
  | base => exact hb
  | succ m _ ih => exact h.mono m b ih

theorem const (x : Option β) : Limit (fun _ => x) x :=
  ⟨fun _ _ h => h, fun _ _ h => h, fun _ h => ⟨0, h⟩⟩

theorem unique (h : Limit f x) (h' : Limit f y) : x = y := by
  rcases hx : x with _ | b
  · rcases hy : y with _ | c
    · rfl
    · obtain ⟨n, hn⟩ := h'.reached c hy
      rw [h.bound n c hn] at hx
      cases hx
  · obtain ⟨n, hn⟩ := h.reached b hx
    exact (h'.bound n b hn).symm

/-- What is reached from index 1 on. -/
theorem shift (h : Limit f x) : Limit (fun n => f (n + 1)) x where
  mono n := h.mono (n + 1)
  bound n := h.bound (n + 1)
  reached b hb := by
    obtain ⟨n, hn⟩ := h.reached b hb
    exact ⟨n, h.mono n b hn⟩

theorem bind {k : Nat → β → Option γ} {l : β → Option γ} (h : Limit f x)
    (hk : ∀ b, Limit (fun n => k n b) (l b)) : Limit (fun n => f n >>= k n) (x >>= l) where
  mono n c hc := by
    obtain ⟨b, hb, hc⟩ := Option.bind_eq_some_iff.1 hc
    exact Option.bind_eq_some_iff.2 ⟨b, h.mono n b hb, (hk b).mono n c hc⟩
  bound n c hc := by
    obtain ⟨b, hb, hc⟩ := Option.bind_eq_some_iff.1 hc
    exact Option.bind_eq_some_iff.2 ⟨b, h.bound n b hb, (hk b).bound n c hc⟩
  reached c hc := by
    obtain ⟨b, hb, hc⟩ := Option.bind_eq_some_iff.1 hc
    obtain ⟨n, hn⟩ := h.reached b hb
    obtain ⟨m, hm⟩ := (hk b).reached c hc
    exact ⟨max n m, Option.bind_eq_some_iff.2 ⟨b, h.le (le_max_left n m) hn,
      (hk b).le (le_max_right n m) hm⟩⟩

theorem map (h : Limit f x) (k : β → γ) : Limit (fun n => (f n).map k) (x.map k) := by
  simp only [Option.map_eq_bind]
  exact h.bind fun b => const (some (k b))

end Limit

/-- Any run of the loop to its end has finitely many rounds, each of them reached at some index. -/
theorem limit_loop {k : Nat → σ → Option (Round σ β)} {l : σ → Option (Round σ β)}
    (h : ∀ s, Limit (fun n => k n s) (l s)) (s : σ) : Limit (fun n => loop (k n) s) (loop l s) where
  mono n b hb := by
    refine loop_induct (k := k n) (motive := fun s b => loop (k (n + 1)) s = some b)
      (fun s b hr => loop_done ((h s).mono n _ hr)) (fun s s' b hr ih => ?_) hb
    rw [loop_next ((h s).mono n _ hr), ih]
  bound n b hb := by
    refine loop_induct (k := k n) (motive := fun s b => loop l s = some b)
      (fun s b hr => loop_done ((h s).bound n _ hr)) (fun s s' b hr ih => ?_) hb
    rw [loop_next ((h s).bound n _ hr), ih]
  reached b hb := by
    -- from the index that the rounds are reached at, they stay
    suffices ∃ n, ∀ m, n ≤ m → loop (k m) s = some b by
      obtain ⟨n, hn⟩ := this
      exact ⟨n, hn n (le_refl n)⟩
    refine loop_induct (k := l) (motive := fun s b => ∃ n, ∀ m, n ≤ m → loop (k m) s = some b)
      (fun s b hr => ?_) (fun s s' b hr ih => ?_) hb
    · obtain ⟨n, hn⟩ := (h s).reached _ hr
      exact ⟨n, fun m hm => loop_done ((h s).le hm hn)⟩
    · obtain ⟨n, hn⟩ := (h s).reached _ hr
      obtain ⟨n', hn'⟩ := ih
      refine ⟨max n n', fun m hm => ?_⟩
      rw [loop_next ((h s).le (le_trans (le_max_left n n') hm) hn),
        hn' m (le_trans (le_max_right n n') hm)]

section
variable {β : Type} {f : Nat → Option β} {h : Nat → Nat → Option β} {g : Nat → Option β}

/-- A search whose probes have ever more results finds their limit. -/
theorem limit_search_self (hf : ∀ n b, f n = some b → f (n + 1) = some b) : Limit f (search f) where
  mono := hf
  bound n _ hb := (search_eq_some_of_mono hf).2 ⟨n, hb⟩
  reached _ hb := (search_eq_some_of_mono hf).1 hb

/-- A search ends when some probe has a result. -/
theorem isSome_search {n : Nat} (hn : (f n).isSome) : (search f).isSome := by
  have hex : ∃ n, (f n).isSome := ⟨n, hn⟩
  obtain ⟨b, hb⟩ := Option.isSome_iff_exists.1 (Nat.find_spec hex)
  rw [search_eq_some_iff.2 ⟨_, hb, fun k hk => by simpa using Nat.find_min hex hk⟩]; rfl

theorem limit_search (hlim : ∀ d, Limit (fun n => h n d) (g d))
    (hmono : ∀ n d b, h n d = some b → h n (d + 1) = some b)
    (hg : ∀ d b, g d = some b → g (d + 1) = some b) : Limit (fun n => search (h n)) (search g) where
  mono n b hb := by
    obtain ⟨d, hd⟩ := (search_eq_some_of_mono (hmono n)).1 hb
    exact (search_eq_some_of_mono (hmono (n + 1))).2 ⟨d, (hlim d).mono n b hd⟩
  bound n b hb := by
    obtain ⟨d, hd⟩ := (search_eq_some_of_mono (hmono n)).1 hb
    exact (search_eq_some_of_mono hg).2 ⟨d, (hlim d).bound n b hd⟩
  reached b hb := by
    obtain ⟨d, hd⟩ := (search_eq_some_of_mono hg).1 hb
    obtain ⟨n, hn⟩ := (hlim d).reached b hd
    exact ⟨n, (search_eq_some_of_mono (hmono n)).2 ⟨d, hn⟩⟩

end

/-! ### Least fixpoints -/

section
variable {ι : Type} {B : ι → Type}

/-- At every index the results of `fs` have the limit `f`. -/
def LimitOf (fs : Nat → (i : ι) → Option (B i)) (f : (i : ι) → Option (B i)) : Prop :=
  ∀ i, Limit (fun n => fs n i) (f i)

/-- `F` keeps limits of families of computations. -/
def Continuous (F : ((i : ι) → Option (B i)) → (i : ι) → Option (B i)) : Prop :=
  ∀ fs f, LimitOf fs f → LimitOf (fun n => F (fs n)) (F f)

/-- `F` applied `n` times to computations without a result. -/
def iterates (F : ((i : ι) → Option (B i)) → (i : ι) → Option (B i)) : Nat → (i : ι) → Option (B i)
  | 0 => fun _ => none
  | n + 1 => F (iterates F n)

/-- The result that one of the iterates has. -/
def lfp (F : ((i : ι) → Option (B i)) → (i : ι) → Option (B i)) (i : ι) : Option (B i) :=
  search fun n => iterates F n i

theorem limitOf_const (f : (i : ι) → Option (B i)) : LimitOf (fun _ => f) f := fun i => .const (f i)

/-- `g` is the limit of `f, g, g, …`. -/
theorem limitOf_ite {f g : (i : ι) → Option (B i)} (hfg : ∀ i b, f i = some b → g i = some b) :
    LimitOf (fun n => if n = 0 then f else g) g := by
  have hle : ∀ n i b, (if n = 0 then f else g) i = some b → g i = some b := by
    intro n i b hb
    rcases Nat.eq_zero_or_pos n with rfl | hn
    · exact hfg i b hb
    · simpa [Nat.ne_of_gt hn] using hb
  exact fun i => ⟨fun n => hle n i, fun n => hle n i, fun b hb => ⟨1, hb⟩⟩

namespace Continuous
variable {F : ((i : ι) → Option (B i)) → (i : ι) → Option (B i)} (h : Continuous F)
include h

/-- A continuous function is monotone. -/
theorem mono {f g : (i : ι) → Option (B i)} (hfg : ∀ i b, f i = some b → g i = some b) (i : ι) (b : B i)
    (hb : F f i = some b) : F g i = some b :=
  (h _ g (limitOf_ite hfg) i).bound 0 b hb

theorem iterates_mono (n : Nat) (i : ι) (b : B i) (hb : iterates F n i = some b) :
    iterates F (n + 1) i = some b := by
  induction n generalizing i b with
  | zero => cases hb
  | succ n ih => exact h.mono ih i b hb

theorem limit_lfp : LimitOf (iterates F) (lfp F) :=
  fun i => limit_search_self fun n => h.iterates_mono n i

theorem lfp_eq : lfp F = F (lfp F) :=
  funext fun i => (h.limit_lfp i).shift.unique (h _ _ h.limit_lfp i)

/-- Whatever has the results that `F` makes of it has the results of the least fixpoint. -/
theorem lfp_le {f : (i : ι) → Option (B i)} (hf : ∀ i b, F f i = some b → f i = some b) (i : ι) (b : B i)
    (hb : lfp F i = some b) : f i = some b := by
  have hiterates : ∀ n i b, iterates F n i = some b → f i = some b := by
    intro n
    induction n with
    | zero => intro i b hb; cases hb
    | succ n ih => exact fun i b hb => hf i b (h.mono ih i b hb)
  obtain ⟨n, hn⟩ := (h.limit_lfp i).reached b hb
  exact hiterates n i b hn

end Continuous

/-- The least fixpoint is continuous in the function that it is taken of. -/
theorem limitOf_lfp {Fs : Nat → ((i : ι) → Option (B i)) → (i : ι) → Option (B i)}
    {F : ((i : ι) → Option (B i)) → (i : ι) → Option (B i)} (hn : ∀ n, Continuous (Fs n))
    (hF : Continuous F) (h : ∀ fs f, LimitOf fs f → LimitOf (fun n => Fs n (fs n)) (F f)) :
    LimitOf (fun n => lfp (Fs n)) (lfp F) := by
  have hiterates : ∀ d, LimitOf (fun n => iterates (Fs n) d) (iterates F d) := by
    intro d
    induction d with
    | zero => exact fun _ => .const none
    | succ d ih => exact h _ _ ih
  exact fun i => limit_search (fun d => hiterates d i) (fun n d => (hn n).iterates_mono d i)
    fun d => hF.iterates_mono d i

end

/-! ### Least solutions of two equations -/

section
variable {ι κ μ : Type} {B : ι → Type} {C : κ → Type} {D : μ → Type}

/-- `F` keeps limits in both arguments. -/
def Continuous₂ (F : ((i : ι) → Option (B i)) → ((k : κ) → Option (C k)) → (m : μ) → Option (D m)) : Prop :=
  ∀ fs f gs g, LimitOf fs f → LimitOf gs g → LimitOf (fun n => F (fs n) (gs n)) (F f g)

/-- The least `f` that is `F f g`, with the least `g` that is `G f g` for each of them. -/
def nested (F : ((i : ι) → Option (B i)) → ((k : κ) → Option (C k)) → (i : ι) → Option (B i))
    (G : ((i : ι) → Option (B i)) → ((k : κ) → Option (C k)) → (k : κ) → Option (C k)) :
    (i : ι) → Option (B i) := lfp fun f => F f (lfp (G f))

namespace Continuous₂
variable {F : ((i : ι) → Option (B i)) → ((k : κ) → Option (C k)) → (m : μ) → Option (D m)}
  (hF : Continuous₂ F)
include hF

theorem flip : Continuous₂ fun g f => F f g := fun gs g fs f hg hf => hF fs f gs g hf hg

theorem mono {f f' : (i : ι) → Option (B i)} {g g' : (k : κ) → Option (C k)}
    (hf : ∀ i b, f i = some b → f' i = some b) (hg : ∀ k c, g k = some c → g' k = some c) (m : μ) (d : D m)
    (hd : F f g m = some d) : F f' g' m = some d :=
  (hF _ f' _ g' (limitOf_ite hf) (limitOf_ite hg) m).bound 0 d hd

end Continuous₂

variable {F : ((i : ι) → Option (B i)) → ((k : κ) → Option (C k)) → (i : ι) → Option (B i)}
  {G : ((i : ι) → Option (B i)) → ((k : κ) → Option (C k)) → (k : κ) → Option (C k)}

theorem Continuous₂.right (hG : Continuous₂ G) (f : (i : ι) → Option (B i)) : Continuous (G f) :=
  fun gs g hg => hG _ _ gs g (limitOf_const f) hg

theorem Continuous₂.limitOf_lfp (hG : Continuous₂ G) {fs : Nat → (i : ι) → Option (B i)}
    {f : (i : ι) → Option (B i)} (hf : LimitOf fs f) : LimitOf (fun n => lfp (G (fs n))) (lfp (G f)) :=
  Loop.limitOf_lfp (fun n => hG.right (fs n)) (hG.right f) fun gs g hg => hG fs f gs g hf hg

theorem continuous_nested (hF : Continuous₂ F) (hG : Continuous₂ G) :
    Continuous fun f => F f (lfp (G f)) :=
  fun fs f hf => hF fs f _ _ hf (hG.limitOf_lfp hf)

/-- The nested fixpoints are a solution of both equations. -/
theorem nested_eq (hF : Continuous₂ F) (hG : Continuous₂ G) :
    nested F G = F (nested F G) (lfp (G (nested F G))) :=
  (continuous_nested hF hG).lfp_eq

/-- The results of the nested fixpoints are those of any `f` and `g` that have the results that `F` and
`G` make of them. -/
theorem nested_le (hF : Continuous₂ F) (hG : Continuous₂ G) {f : (i : ι) → Option (B i)}
    {g : (k : κ) → Option (C k)} (hf : ∀ i b, F f g i = some b → f i = some b)
    (hg : ∀ k c, G f g k = some c → g k = some c) :
    (∀ i b, nested F G i = some b → f i = some b) ∧
      ∀ k c, lfp (G (nested F G)) k = some c → g k = some c := by
  have hinner : ∀ k c, lfp (G f) k = some c → g k = some c := (hG.right f).lfp_le hg
  have houter : ∀ i b, nested F G i = some b → f i = some b := by
    refine (continuous_nested hF hG).lfp_le fun i b hb => hf i b ?_
    exact hF.mono (fun _ _ h => h) hinner i b hb
  refine ⟨houter, (hG.right _).lfp_le fun k c hc => hg k c ?_⟩
  exact hG.mono houter (fun _ _ h => h) k c hc

/-- Which of the two is nested in the other makes no difference. -/
theorem lfp_nested (hF : Continuous₂ F) (hG : Continuous₂ G) :
    lfp (G (nested F G)) = nested (fun g f => G f g) fun g f => F f g := by
  have hF' := hF.flip
  have hG' := hG.flip
  funext k
  have hle : ∀ c, lfp (G (nested F G)) k = some c → nested (fun g f => G f g) (fun g f => F f g) k = some c :=
    (nested_le hF hG (fun i b hb => by rwa [← (hF'.right _).lfp_eq] at hb)
      fun k c hc => by rwa [← nested_eq hG' hF'] at hc).2 k
  have hge : ∀ c, nested (fun g f => G f g) (fun g f => F f g) k = some c → lfp (G (nested F G)) k = some c :=
    (nested_le hG' hF' (fun k c hc => by rwa [← (hG.right _).lfp_eq] at hc)
      fun i b hb => by rwa [← nested_eq hF hG] at hb).1 k
  exact Option.ext fun c => ⟨hle c, hge c⟩

end

end Loop

namespace Attempt
universe u
variable {σ α β γ : Type u}

/-- At every state the outcome of `q` is the limit of the outcomes of `p`. -/
def Limit (p : Nat → Attempt σ α) (q : Attempt σ α) : Prop := ∀ s, Loop.Limit (fun n => p n s) (q s)

section
variable {p p' : Nat → Attempt σ α} {q q' : Attempt σ α}

theorem limit_const (q : Attempt σ α) : Limit (fun _ => q) q := fun s => .const (q s)

theorem Limit.bind {k : Nat → α → Attempt σ β} {l : α → Attempt σ β} (h : Limit p q)
    (hk : ∀ a, Limit (fun n => k n a) (l a)) : Limit (fun n => bind (p n) (k n)) (bind q l) := by
  intro s
  refine (h s).bind fun o => ?_
  cases o with
  | none => exact .const _
  | some x => exact hk x.2 x.1

theorem Limit.map (h : Limit p q) (f : α → β) : Limit (fun n => map f (p n)) (map f q) :=
  h.bind fun a => limit_const (pure (f a))

theorem Limit.orElse (h : Limit p q) (h' : Limit p' q') :
    Limit (fun n => orElse (p n) (p' n)) (orElse q q') := by
  intro s
  refine (h s).bind fun o => ?_
  cases o with
  | none => exact h' s
  | some x => exact .const _

theorem Limit.peek (h : Limit p q) : Limit (fun n => peek (p n)) (peek q) :=
  fun s => (h s).bind fun _ => .const _

theorem Limit.iterate {k : Nat → α → Attempt σ α} {l : α → Attempt σ α}
    (h : ∀ a, Limit (fun n => k n a) (l a)) (a : α) :
    Limit (fun n => iterate (k n) a) (iterate l a) := by
  intro s
  refine (Loop.limit_loop (fun x => ?_) (s, a)).bind fun _ => .const _
  refine (h x.2 x.1).bind fun o => ?_
  cases o with
  | none => exact .const _
  | some y => exact .const _

theorem Limit.sepBy {sep : Nat → Attempt σ β} {sep' : Attempt σ β} {push : γ → α → γ}
    (hsep : Limit sep sep') (h : Limit p q) (x : γ) :
    Limit (fun n => sepBy (sep n) (p n) push x) (sepBy sep' q push x) := by
  refine (h.bind fun a => ?_).orElse (limit_const (pure x))
  exact Limit.iterate (fun y => (hsep.bind fun _ => h).map (push y)) (push x a)

end

end Attempt
