import Mathlib.Order.ConditionallyCompleteLattice.Basic
import Mathlib.Order.FixedPoints
import Noam.Recognition

/-!
# Attempts that are adequate for a grammar

What an attempt that is adequate for a grammar returns is what the grammar derives; it need not return.
This half of recognising needs no measure of the text: an attempt that calls itself is adequate for a
fixpoint of its grammar by induction on the depth of the calls.
-/

namespace Recognition
open Attempt
universe u
variable {σ α β γ δ : Type u}

/-- Where the grammar derives a value, the attempt does not return anything but this value and the rest,
and where it succeeds, the grammar derives something. -/
structure Adequate (c : Cursor σ α) (A : Attempt σ β) (G : Grammar α β) : Prop where
  parses : ∀ {s t b t' o}, c.Shows s t → G t b t' → A s = some o →
    ∃ w, t = w ++ t' ∧ o = some (c.drop s w.length, b)
  derives : ∀ {s t x}, c.Shows s t → A s = some (some x) → ∃ b t', G t b t'

variable {c : Cursor σ α} {A B : Attempt σ β} {G H : Grammar α β} {s s' : σ} {t t' t₁ : List α}
variable {b : β} {bs bs' : List β}

theorem Recognizes.adequate {D : List α → Prop} (h : Recognizes c D A G) (hD : ∀ t, D t) :
    Adequate c A G := by
  constructor
  · intro s t b t' o hs hG hA
    obtain ⟨w, ht, hA'⟩ := h.parses (hD t) hs hG
    rw [hA, Option.some.injEq] at hA'
    exact ⟨w, ht, hA'⟩
  · rintro s t ⟨s', b⟩ hs hA
    obtain ⟨w, t', -, -, hG⟩ := h.sound (hD t) hs hA
    exact ⟨b, t', hG⟩

namespace Adequate

theorem sound (h : Adequate c A G) (hs : c.Shows s t) (hA : A s = some (some (s', b))) :
    ∃ w t', t = w ++ t' ∧ s' = c.drop s w.length ∧ G t b t' := by
  obtain ⟨b', t', hG⟩ := h.derives hs hA
  obtain ⟨w, ht, heq⟩ := h.parses hs hG hA
  cases heq
  exact ⟨w, t', ht, rfl, hG⟩

theorem not_fail (h : Adequate c A G) (hs : c.Shows s t) (hG : G t b t') : A s ≠ some none := by
  intro hA
  obtain ⟨w, -, heq⟩ := h.parses hs hG hA
  cases heq

theorem congr (h : Adequate c A G) (hG : ∀ t b t', H t b t' ↔ G t b t') : Adequate c A H where
  parses hs hH hA := h.parses hs ((hG _ _ _).1 hH) hA
  derives hs hA := by
    obtain ⟨b, t', hGt⟩ := h.derives hs hA
    exact ⟨b, t', (hG _ _ _).2 hGt⟩

/-- An attempt of which every result is one of an adequate attempt. -/
theorem of_results (h : ∀ {s o}, A s = some o → ∃ B, Adequate c B G ∧ B s = some o) : Adequate c A G where
  parses hs hG hA := by
    obtain ⟨B, hB, hrun⟩ := h hA
    exact hB.parses hs hG hrun
  derives hs hA := by
    obtain ⟨B, hB, hrun⟩ := h hA
    exact hB.derives hs hrun

theorem pure (b : β) : Adequate c (Attempt.pure b) fun t b' t' => b' = b ∧ t' = t := by
  constructor
  · rintro s t b' t' o hs ⟨rfl, rfl⟩ hA
    cases hA
    exact ⟨[], rfl, by rw [List.length_nil, c.drop_zero]⟩
  · intro s t x hs hA
    exact ⟨b, t, rfl, rfl⟩

theorem bind {k : β → Attempt σ γ} {K : β → Grammar α γ} (h : Adequate c A G)
    (hk : ∀ b, Adequate c (k b) (K b)) :
    Adequate c (Attempt.bind A k) fun t x t'' => ∃ b t', G t b t' ∧ K b t' x t'' := by
  constructor
  · rintro s t x t'' o hs ⟨b, t', hG, hK⟩ hrun
    rcases hA : A s with _ | o'
    · rw [bind_none hA] at hrun
      cases hrun
    · obtain ⟨w, rfl, rfl⟩ := h.parses hs hG hA
      rw [bind_some hA] at hrun
      obtain ⟨w', rfl, rfl⟩ := (hk b).parses (c.shows_drop hs) hK hrun
      exact ⟨w ++ w', (List.append_assoc _ _ _).symm, by rw [c.drop_drop, List.length_append]⟩
  · intro s t x hs hrun
    rcases hA : A s with _ | _ | ⟨s', b⟩
    · rw [bind_none hA] at hrun
      cases hrun
    · rw [bind_fail hA] at hrun
      cases hrun
    · obtain ⟨w, t', rfl, rfl, hG⟩ := h.sound hs hA
      rw [bind_some hA] at hrun
      obtain ⟨y, t'', hK⟩ := (hk b).derives (c.shows_drop hs) hrun
      exact ⟨y, t'', b, t', hG, hK⟩

theorem map (h : Adequate c A G) (f : β → γ) :
    Adequate c (Attempt.map f A) fun t x t' => ∃ b, G t b t' ∧ x = f b := by
  refine (h.bind fun b => pure (f b)).congr fun t x t' => ?_
  constructor
  · rintro ⟨b, hG, rfl⟩
    exact ⟨b, t', hG, rfl, rfl⟩
  · rintro ⟨b, _, hG, rfl, rfl⟩
    exact ⟨b, hG, rfl⟩

/-- A choice of which at most one side derives something. -/
theorem orElse (hA : Adequate c A G) (hB : Adequate c B H)
    (hne : ∀ {t b t' b' t''}, G t b t' → ¬ H t b' t'') :
    Adequate c (Attempt.orElse A B) fun t b t' => G t b t' ∨ H t b t' := by
  constructor
  · rintro s t b t' o hs hG hrun
    rcases hrunA : A s with _ | _ | x
    · rw [orElse_none hrunA] at hrun
      cases hrun
    · rw [orElse_fail hrunA] at hrun
      rcases hG with hG | hH
      · exact absurd hrunA (hA.not_fail hs hG)
      · exact hB.parses hs hH hrun
    · rw [orElse_some hrunA] at hrun
      cases hrun
      rcases hG with hG | hH
      · exact hA.parses hs hG hrunA
      · obtain ⟨b', t'', hG⟩ := hA.derives hs hrunA
        exact absurd hH (hne hG)
  · intro s t x hs hrun
    rcases hrunA : A s with _ | _ | y
    · rw [orElse_none hrunA] at hrun
      cases hrun
    · rw [orElse_fail hrunA] at hrun
      obtain ⟨b, t', hH⟩ := hB.derives hs hrun
      exact ⟨b, t', .inr hH⟩
    · obtain ⟨b, t', hG⟩ := hA.derives hs hrunA
      exact ⟨b, t', .inl hG⟩

end Adequate

/-! ### Separated lists -/

section
variable {sep : Attempt σ γ} {elem : Attempt σ β} {S : Grammar α γ}
variable (hsep : Adequate c sep S) (helem : Adequate c elem G)
include hsep helem

theorem adequate_round : Adequate c (Attempt.bind sep fun _ => elem)
    fun t b t' => ∃ u t₁, S t u t₁ ∧ G t₁ b t' := hsep.bind fun _ => helem

/-- The rounds of the loop are rounds of the grammar. -/
theorem sepRest_of_greedy (h : Greedy (Attempt.bind sep fun _ => elem) s bs s') (hs : c.Shows s t) :
    ∃ w t', t = w ++ t' ∧ s' = c.drop s w.length ∧ SepRest S G t bs t' := by
  induction h generalizing t with
  | stop => exact ⟨[], t, rfl, by rw [List.length_nil, c.drop_zero], .nil t⟩
  | step hrun _ ih =>
    obtain ⟨w, t₁, rfl, rfl, u, t₂, hS, hG⟩ := (adequate_round hsep helem).sound hs hrun
    obtain ⟨w', t', rfl, rfl, hrest⟩ := ih (c.shows_drop hs)
    refine ⟨w ++ w', t', (List.append_assoc _ _ _).symm, ?_, .cons hS hG hrest⟩
    rw [c.drop_drop, List.length_append]

/-- The loop takes what the grammar takes when no round can follow it. -/
theorem eq_of_greedy (h : Greedy (Attempt.bind sep fun _ => elem) s bs s') (hs : c.Shows s t)
    (hG : SepRest S G t bs' t') (hstop : ∀ u t₁ b t₂, S t' u t₁ → ¬ G t₁ b t₂) :
    bs = bs' ∧ ∃ w, t = w ++ t' ∧ s' = c.drop s w.length := by
  induction hG generalizing s bs with
  | nil t =>
    cases h with
    | stop => exact ⟨rfl, [], rfl, by rw [List.length_nil, c.drop_zero]⟩
    | step hrun _ =>
      obtain ⟨b, t₂, u, t₁, hS, hGt⟩ := (adequate_round hsep helem).derives hs hrun
      exact absurd hGt (hstop u t₁ b t₂ hS)
  | cons hS hGt _ ih =>
    cases h with
    | stop hrun => exact absurd hrun ((adequate_round hsep helem).not_fail hs ⟨_, _, hS, hGt⟩)
    | step hrun hgreedy =>
      obtain ⟨w, rfl, heq⟩ := (adequate_round hsep helem).parses hs ⟨_, _, hS, hGt⟩ hrun
      cases heq
      obtain ⟨rfl, w', rfl, rfl⟩ := ih hgreedy (c.shows_drop hs) hstop
      refine ⟨rfl, w ++ w', (List.append_assoc _ _ _).symm, ?_⟩
      rw [c.drop_drop, List.length_append]

theorem sepList_of_elements (h : Elements sep elem s bs s') (hs : c.Shows s t) :
    ∃ w t', t = w ++ t' ∧ s' = c.drop s w.length ∧ SepList S G t bs t' := by
  cases h with
  | nil => exact ⟨[], t, rfl, by rw [List.length_nil, c.drop_zero], .nil t⟩
  | cons hrun hgreedy =>
    obtain ⟨w, t₁, rfl, rfl, hG⟩ := helem.sound hs hrun
    obtain ⟨w', t', rfl, rfl, hrest⟩ := sepRest_of_greedy hsep helem hgreedy (c.shows_drop hs)
    refine ⟨w ++ w', t', (List.append_assoc _ _ _).symm, ?_, .cons hG hrest⟩
    rw [c.drop_drop, List.length_append]

theorem eq_of_elements (h : Elements sep elem s bs s') (hs : c.Shows s t) (hG : SepList S G t bs' t')
    (hnil : bs' = [] → ∀ b t₁, ¬ G t b t₁) (hstop : ∀ u t₁ b t₂, S t' u t₁ → ¬ G t₁ b t₂) :
    bs = bs' ∧ ∃ w, t = w ++ t' ∧ s' = c.drop s w.length := by
  cases hG with
  | nil t =>
    cases h with
    | nil => exact ⟨rfl, [], rfl, by rw [List.length_nil, c.drop_zero]⟩
    | cons hrun _ =>
      obtain ⟨b, t₁, hGt⟩ := helem.derives hs hrun
      exact absurd hGt (hnil rfl b t₁)
  | cons hGt hrest =>
    cases h with
    | nil hrun => exact absurd hrun (helem.not_fail hs hGt)
    | cons hrun hgreedy =>
      obtain ⟨w, rfl, heq⟩ := helem.parses hs hGt hrun
      cases heq
      obtain ⟨rfl, w', rfl, rfl⟩ := eq_of_greedy hsep helem hgreedy (c.shows_drop hs) hrest hstop
      refine ⟨rfl, w ++ w', (List.append_assoc _ _ _).symm, ?_⟩
      rw [c.drop_drop, List.length_append]

/-- A separated list and its closing, when neither a separator nor an element starts where the closing
does. -/
theorem adequate_sepBy (push : δ → β → δ) (x : δ) {close : Attempt σ γ} {C : Grammar α γ}
    (hclose : Adequate c close C) (hsepClose : ∀ {t u t' w t''}, S t u t' → ¬ C t w t'')
    (helemClose : ∀ {t b t' w t''}, G t b t' → ¬ C t w t'') :
    Adequate c (Attempt.bind (sepBy sep elem push x) fun y => Attempt.map (fun _ => y) close)
      fun t y t' => ∃ bs t₁ u, SepList S G t bs t₁ ∧ C t₁ u t' ∧ y = bs.foldl push x := by
  have hlist : ∀ {s o}, sepBy sep elem push x s = some o →
      ∃ s' bs, o = some (s', bs.foldl push x) ∧ Elements sep elem s bs s' := by
    intro s o hrun
    rcases o with _ | ⟨s', y⟩
    · exact absurd hrun (neverFails_sepBy sep elem push x s)
    · obtain ⟨bs, helems, rfl⟩ := sepBy_eq_some_iff.1 hrun
      exact ⟨s', bs, rfl, helems⟩
  constructor
  · rintro s t y t' o hs ⟨bs', t₁, u, hG, hC, rfl⟩ hrun
    rcases hsepBy : sepBy sep elem push x s with _ | o'
    · rw [bind_none hsepBy] at hrun
      cases hrun
    · obtain ⟨s', bs, rfl, helems⟩ := hlist hsepBy
      -- an empty list is followed by the closing, where no element starts
      have hnil : bs' = [] → ∀ b t₂, ¬ G t b t₂ := by
        rintro rfl b t₂ hGt
        cases hG
        exact helemClose hGt hC
      obtain ⟨rfl, w, rfl, rfl⟩ := eq_of_elements hsep helem helems hs hG hnil
        fun u' t₂ b t₃ hS _ => hsepClose hS hC
      rw [bind_some hsepBy] at hrun
      obtain ⟨w', rfl, rfl⟩ := (hclose.map fun _ => bs.foldl push x).parses (c.shows_drop hs)
        ⟨u, hC, rfl⟩ hrun
      refine ⟨w ++ w', (List.append_assoc _ _ _).symm, ?_⟩
      rw [c.drop_drop, List.length_append]
  · intro s t z hs hrun
    rcases hsepBy : sepBy sep elem push x s with _ | o'
    · rw [bind_none hsepBy] at hrun
      cases hrun
    · obtain ⟨s', bs, rfl, helems⟩ := hlist hsepBy
      obtain ⟨w, t₁, rfl, rfl, hG⟩ := sepList_of_elements hsep helem helems hs
      rw [bind_some hsepBy] at hrun
      obtain ⟨y, t', u, hC, rfl⟩ := (hclose.map fun _ => bs.foldl push x).derives (c.shows_drop hs) hrun
      exact ⟨_, t', bs, t₁, u, hG, hC, rfl⟩

end

/-! ### The least grammar of an equation -/

section
variable {Φ Ψ : Grammar α β → Grammar α β} {S : Grammar α γ}

/-- The least grammar that is closed under `Φ`. -/
def least (Φ : Grammar α β → Grammar α β) : Grammar α β := sInf {G | Φ G ≤ G}

theorem least_eq (hΦ : Monotone Φ) : Φ (least Φ) = least Φ := OrderHom.map_lfp ⟨Φ, hΦ⟩

theorem least_mono (h : Φ ≤ Ψ) : least Φ ≤ least Ψ :=
  sInf_le_sInf fun _ hG => (h _).trans hG

theorem SepRest.mono (hG : G ≤ H) (h : SepRest S G t bs t') : SepRest S H t bs t' := by
  induction h with
  | nil t => exact .nil t
  | cons hsep helem _ ih => exact .cons hsep (hG _ _ _ helem) ih

theorem SepList.mono (hG : G ≤ H) (h : SepList S G t bs t') : SepList S H t bs t' := by
  cases h with
  | nil => exact .nil _
  | cons helem h => exact .cons (hG _ _ _ helem) (h.mono hG)

end

end Recognition
