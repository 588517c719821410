import Noam.Attempt

/-!
# Attempts that recognise a grammar

A grammar relates a text to a value and to what is left of the text. An attempt recognises it when it
succeeds with the values and the rests that the grammar has, and fails where it has none; such a grammar
is deterministic. Ordered choice recognises the union of grammars that exclude each other, in every
order. A separated list that takes all it can is the same as one of the grammar when no separator can
start where the closing can.
-/

namespace Recognition
open Attempt
universe u
variable {σ α β γ δ : Type u}

/-- States that show a text and can drop characters of it. -/
structure Cursor (σ α : Type u) where
  Shows : σ → List α → Prop
  drop : σ → Nat → σ
  drop_zero : ∀ s, drop s 0 = s
  drop_drop : ∀ s n m, drop (drop s n) m = drop s (n + m)
  shows_drop : ∀ {s w t}, Shows s (w ++ t) → Shows (drop s w.length) t
  shows_unique : ∀ {s t t'}, Shows s t → Shows s t' → t = t'

/-- A text, a value and what is left of the text. -/
abbrev Grammar (α β : Type u) := List α → β → List α → Prop

/-- On the texts of `D` the attempt succeeds where `G` derives a value, with that value and what `G`
leaves, and fails where it does not. -/
structure Recognizes (c : Cursor σ α) (D : List α → Prop) (A : Attempt σ β) (G : Grammar α β) :
    Prop where
  parses : ∀ {s t b t'}, D t → c.Shows s t → G t b t' →
    ∃ w, t = w ++ t' ∧ A s = some (some (c.drop s w.length, b))
  fails : ∀ {s t}, D t → c.Shows s t → (∀ b t', ¬ G t b t') → A s = some none

variable {c : Cursor σ α} {D D' : List α → Prop} {A B : Attempt σ β} {G H : Grammar α β}
variable {s s' : σ} {t t' t'' : List α} {b b' : β}

namespace Recognizes

theorem sound (h : Recognizes c D A G) (hD : D t) (hs : c.Shows s t)
    (hA : A s = some (some (s', b))) :
    ∃ w t', t = w ++ t' ∧ s' = c.drop s w.length ∧ G t b t' := by
  by_cases hG : ∃ b t', G t b t'
  · obtain ⟨b', t', hG⟩ := hG
    obtain ⟨w, ht, hA'⟩ := h.parses hD hs hG
    rw [hA] at hA'; cases hA'
    exact ⟨w, t', ht, rfl, hG⟩
  · rw [h.fails hD hs fun b t' hG' => hG ⟨b, t', hG'⟩] at hA
    cases hA

/-- A recognised grammar is deterministic. -/
theorem unique (h : Recognizes c D A G) (hD : D t) (hs : c.Shows s t) (hG : G t b t')
    (hG' : G t b' t'') : b = b' ∧ t' = t'' := by
  obtain ⟨w, rfl, hA⟩ := h.parses hD hs hG
  obtain ⟨w', ht, hA'⟩ := h.parses hD hs hG'
  have hdrop := c.shows_drop hs
  rw [hA, Option.some.injEq, Option.some.injEq, Prod.mk.injEq] at hA'
  rw [hA'.1] at hdrop
  rw [ht] at hs
  exact ⟨hA'.2, c.shows_unique hdrop (c.shows_drop hs)⟩

theorem mono (h : Recognizes c D A G) (hD : ∀ t, D' t → D t) : Recognizes c D' A G :=
  ⟨fun ht => h.parses (hD _ ht), fun ht => h.fails (hD _ ht)⟩

theorem congr (h : Recognizes c D A G) (hG : ∀ t b t', D t → (H t b t' ↔ G t b t')) :
    Recognizes c D A H :=
  ⟨fun ht hs hH => h.parses ht hs ((hG _ _ _ ht).1 hH), fun ht hs hH =>
    h.fails ht hs fun b t' hGt => hH b t' ((hG _ _ _ ht).2 hGt)⟩

theorem congr_run (h : Recognizes c D A G) (hB : ∀ s t, D t → c.Shows s t → B s = A s) :
    Recognizes c D B G :=
  ⟨fun ht hs hG => by rw [hB _ _ ht hs]; exact h.parses ht hs hG, fun ht hs hG => by
    rw [hB _ _ ht hs]; exact h.fails ht hs hG⟩

theorem bind {k : β → Attempt σ γ} {K : β → Grammar α γ} (h : Recognizes c D A G)
    (hk : ∀ b, Recognizes c D' (k b) (K b)) (hD : ∀ w t b, D (w ++ t) → G (w ++ t) b t → D' t) :
    Recognizes c D (bind A k) fun t x t'' => ∃ b t', G t b t' ∧ K b t' x t'' := by
  constructor
  · rintro s t x t'' hDt hs ⟨b, t', hG, hK⟩
    obtain ⟨w, rfl, hA⟩ := h.parses hDt hs hG
    obtain ⟨w', rfl, hk'⟩ := (hk b).parses (hD _ _ _ hDt hG) (c.shows_drop hs) hK
    refine ⟨w ++ w', (List.append_assoc _ _ _).symm, ?_⟩
    rw [bind_some hA, hk', c.drop_drop, List.length_append]
  · intro s t hDt hs hno
    by_cases hG : ∃ b t', G t b t'
    · obtain ⟨b, t', hG⟩ := hG
      obtain ⟨w, rfl, hA⟩ := h.parses hDt hs hG
      rw [bind_some hA]
      exact (hk b).fails (hD _ _ _ hDt hG) (c.shows_drop hs) fun x t'' hK => hno x t'' ⟨b, t', hG, hK⟩
    · exact bind_fail (h.fails hDt hs fun b t' hG' => hG ⟨b, t', hG'⟩)

theorem map (h : Recognizes c D A G) (f : β → γ) :
    Recognizes c D (map f A) fun t x t' => ∃ b, G t b t' ∧ x = f b := by
  constructor
  · rintro s t x t' hDt hs ⟨b, hG, hx⟩
    obtain ⟨w, ht, hA⟩ := h.parses hDt hs hG
    exact ⟨w, ht, by rw [map_apply, hA, hx]; rfl⟩
  · intro s t hDt hs hno
    rw [map_apply, h.fails hDt hs fun b t' hG => hno (f b) t' ⟨b, hG, rfl⟩]; rfl

end Recognizes

/-! ### Choice -/

/-- The first attempt of a list that succeeds. -/
def firstOf : List (Attempt σ β) → Attempt σ β
  | [] => fail
  | A :: As => orElse A (firstOf As)

/-- A choice between alternatives of which at most one derives something, in whatever order. -/
theorem recognizes_firstOf {ι : Type} {A : ι → Attempt σ β} {G : ι → Grammar α β}
    (h : ∀ i, Recognizes c D (A i) (G i))
    (hne : ∀ {i j t b t' b' t''}, D t → G i t b t' → G j t b' t'' → i = j) (order : List ι) :
    Recognizes c D (firstOf (order.map A)) fun t b t' => ∃ i ∈ order, G i t b t' := by
  induction order with
  | nil => exact ⟨fun _ _ ⟨_, hi, _⟩ => absurd hi List.not_mem_nil, fun _ _ _ => rfl⟩
  | cons i order ih =>
    constructor
    · rintro s t b t' hDt hs ⟨j, hj, hG⟩
      -- the first alternative is the one that derives something, or it fails and may be skipped
      by_cases hi : ∃ b t', G i t b t'
      · obtain ⟨b', t'', hG'⟩ := hi
        obtain rfl := hne hDt hG' hG
        obtain ⟨w, ht, hA⟩ := (h i).parses hDt hs hG
        exact ⟨w, ht, orElse_some hA⟩
      · have hmem : j ∈ order := by
          rcases List.mem_cons.1 hj with rfl | hj
          · exact absurd ⟨b, t', hG⟩ hi
          · exact hj
        obtain ⟨w, ht, hA⟩ := ih.parses hDt hs ⟨j, hmem, hG⟩
        refine ⟨w, ht, ?_⟩
        rw [List.map_cons, firstOf, orElse_fail ((h i).fails hDt hs fun b t' hG => hi ⟨b, t', hG⟩), hA]
    · intro s t hDt hs hno
      rw [List.map_cons, firstOf,
        orElse_fail ((h i).fails hDt hs fun b t' hG => hno b t' ⟨i, List.mem_cons_self, hG⟩)]
      exact ih.fails hDt hs fun b t' ⟨j, hj, hG⟩ => hno b t' ⟨j, List.mem_cons_of_mem i hj, hG⟩

/-! ### Separated lists -/

/-- Separators and elements by turns, as many as one likes. -/
inductive SepRest (S : Grammar α γ) (G : Grammar α β) : List α → List β → List α → Prop
  | nil (t : List α) : SepRest S G t [] t
  | cons {t t₁ t₂ t' : List α} {u : γ} {b : β} {bs : List β} (hsep : S t u t₁) (helem : G t₁ b t₂)
      (h : SepRest S G t₂ bs t') : SepRest S G t (b :: bs) t'

/-- Elements with separators between them. -/
inductive SepList (S : Grammar α γ) (G : Grammar α β) : List α → List β → List α → Prop
  -- `[] ++ t` keeps the text an index, so that a grammar can be recursive through its lists
  | nil (t : List α) : SepList S G ([] ++ t) [] t
  | cons {t t₁ t' : List α} {b : β} {bs : List β} (helem : G t b t₁) (h : SepRest S G t₁ bs t') :
      SepList S G t (b :: bs) t'

section
variable {sep : Attempt σ γ} {elem : Attempt σ β} {S S' : Grammar α γ} {bs : List β}
variable {t₁ t₂ : List α}

theorem SepRest.imp (hS : ∀ t u t₁ b t₂, S t u t₁ → G t₁ b t₂ → S' t u t₁)
    (h : SepRest S G t bs t') : SepRest S' G t bs t' := by
  induction h with
  | nil => exact .nil _
  | cons hsep helem _ ih => exact .cons (hS _ _ _ _ _ hsep helem) helem ih

theorem SepList.imp (hS : ∀ t u t₁ b t₂, S t u t₁ → G t₁ b t₂ → S' t u t₁)
    (h : SepList S G t bs t') : SepList S' G t bs t' := by
  cases h with
  | nil => exact .nil _
  | cons helem h => exact .cons helem (h.imp hS)

/-- An element and a separator before a list that is not empty. -/
theorem SepList.cons_sep {u : γ} (helem : G t b t₁) (hsep : S t₁ u t₂) (hne : bs ≠ [])
    (h : SepList S G t₂ bs t') : SepList S G t (b :: bs) t' := by
  cases h with
  | nil => exact absurd rfl hne
  | cons helem' hrest => exact .cons helem (.cons hsep helem' hrest)

theorem SepRest.forall_mem {Q : β → Prop} (hG : ∀ t b t', G t b t' → Q b) (h : SepRest S G t bs t') :
    ∀ b ∈ bs, Q b := by
  induction h with
  | nil => simp
  | cons _ helem _ ih => exact List.forall_mem_cons.2 ⟨hG _ _ _ helem, ih⟩

theorem SepList.forall_mem {Q : β → Prop} (hG : ∀ t b t', G t b t' → Q b) (h : SepList S G t bs t') :
    ∀ b ∈ bs, Q b := by
  cases h with
  | nil => simp
  | cons helem h => exact List.forall_mem_cons.2 ⟨hG _ _ _ helem, h.forall_mem hG⟩

/-- Elements of another grammar, when what follows each of them has a property `P` that every
separator and the end of the list have. -/
theorem SepRest.imp_elem {G' : Grammar α β} {P : List α → Prop} {n : Nat}
    (hS : ∀ t u t', S t u t' → t'.length ≤ t.length ∧ P t)
    (hG : ∀ t b t', t.length < n → G t b t' → t'.length ≤ t.length ∧ (P t' → G' t b t'))
    (h : SepRest S G t bs t') (hn : t.length < n) :
    t'.length ≤ t.length ∧ (P t' → P t ∧ SepRest S G' t bs t') := by
  induction h with
  | nil t => exact ⟨Nat.le_refl _, fun hP => ⟨hP, .nil t⟩⟩
  | cons hsep helem h ih =>
    obtain ⟨hle, hP⟩ := hS _ _ _ hsep
    obtain ⟨hle₁, helem'⟩ := hG _ _ _ (by omega) helem
    obtain ⟨hle₂, hrest⟩ := ih (by omega)
    refine ⟨by omega, fun hP' => ⟨hP, ?_⟩⟩
    obtain ⟨hP₂, hrest'⟩ := hrest hP'
    exact .cons hsep (helem' hP₂) hrest'

theorem SepList.imp_elem {G' : Grammar α β} {P : List α → Prop} {n : Nat}
    (hS : ∀ t u t', S t u t' → t'.length ≤ t.length ∧ P t)
    (hG : ∀ t b t', t.length < n → G t b t' → t'.length ≤ t.length ∧ (P t' → G' t b t'))
    (h : SepList S G t bs t') (hn : t.length < n) :
    t'.length ≤ t.length ∧ (P t' → SepList S G' t bs t') := by
  cases h with
  | nil t => exact ⟨Nat.le_refl _, fun _ => .nil _⟩
  | cons helem h =>
    obtain ⟨hle, helem'⟩ := hG _ _ _ hn helem
    obtain ⟨hle', hrest⟩ := h.imp_elem hS hG (by omega)
    refine ⟨by omega, fun hP => ?_⟩
    obtain ⟨hP', hrest'⟩ := hrest hP
    exact .cons (helem' hP') hrest'

variable (hsep : Recognizes c D sep S) (helem : Recognizes c D elem G)
variable (hD : ∀ w t, D (w ++ t) → D t)
include hsep helem hD

theorem recognizes_round : Recognizes c D (Attempt.bind sep fun _ => elem)
    fun t b t' => ∃ u t₁, S t u t₁ ∧ G t₁ b t' :=
  hsep.bind (fun _ => helem) fun w t _ hDt _ => hD w t hDt

/-- The rounds of the loop take what the grammar takes when no round can follow it. -/
theorem SepRest.greedy (h : SepRest S G t bs t') (hDt : D t) (hs : c.Shows s t)
    (hstop : ∀ u t₁ b t₂, S t' u t₁ → ¬ G t₁ b t₂) :
    ∃ w, t = w ++ t' ∧ Greedy (Attempt.bind sep fun _ => elem) s bs (c.drop s w.length) := by
  have hround := recognizes_round hsep helem hD
  induction h generalizing s with
  | nil t =>
    refine ⟨[], rfl, ?_⟩
    rw [List.length_nil, c.drop_zero]
    exact .stop (hround.fails hDt hs fun b t₂ ⟨u, t₁, hS, hG⟩ => hstop u t₁ b t₂ hS hG)
  | cons hS hG h ih =>
    obtain ⟨w, rfl, hrun⟩ := hround.parses hDt hs ⟨_, _, hS, hG⟩
    obtain ⟨w', rfl, hgreedy⟩ := ih (hD _ _ hDt) (c.shows_drop hs) hstop
    refine ⟨w ++ w', (List.append_assoc _ _ _).symm, .step hrun ?_⟩
    rw [List.length_append, ← c.drop_drop]
    exact hgreedy

theorem SepList.elements (h : SepList S G t bs t') (hDt : D t) (hs : c.Shows s t)
    (hnil : bs = [] → ∀ b t₁, ¬ G t b t₁)
    (hstop : bs ≠ [] → ∀ u t₁ b t₂, S t' u t₁ → ¬ G t₁ b t₂) :
    ∃ w, t = w ++ t' ∧ Elements sep elem s bs (c.drop s w.length) := by
  cases h with
  | nil =>
    refine ⟨[], rfl, ?_⟩
    rw [List.length_nil, c.drop_zero]
    exact .nil (helem.fails hDt hs (hnil rfl))
  | cons hG h =>
    obtain ⟨w, rfl, hrun⟩ := helem.parses hDt hs hG
    obtain ⟨w', rfl, hgreedy⟩ := h.greedy hsep helem hD (hD _ _ hDt) (c.shows_drop hs)
      (hstop (List.cons_ne_nil _ _))
    refine ⟨w ++ w', (List.append_assoc _ _ _).symm, .cons hrun ?_⟩
    rw [List.length_append, ← c.drop_drop]
    exact hgreedy

variable (hlt : ∀ {t u t'}, S t u t' → t'.length < t.length)
include hlt

/-- The rounds come to an end, each with a shorter text. -/
theorem exists_sepRest (hDt : D t) (hs : c.Shows s t) :
    ∃ bs t', SepRest S G t bs t' ∧ ∀ u t₁ b t₂, S t' u t₁ → ¬ G t₁ b t₂ := by
  induction hn : t.length using Nat.strong_induction_on generalizing s t with
  | _ n ih =>
    by_cases h : ∃ u t₁ b t₂, S t u t₁ ∧ G t₁ b t₂
    · obtain ⟨u, t₁, b, t₂, hS, hG⟩ := h
      obtain ⟨w, rfl, -⟩ := hsep.parses hDt hs hS
      have hs₁ := c.shows_drop hs
      obtain ⟨w', rfl, -⟩ := helem.parses (hD _ _ hDt) hs₁ hG
      have hshort := hlt hS
      rw [List.length_append] at hshort
      obtain ⟨bs, t', hrest, hstop⟩ := ih t₂.length (by omega) (hD _ _ (hD _ _ hDt))
        (c.shows_drop hs₁) rfl
      exact ⟨b :: bs, t', .cons hS hG hrest, hstop⟩
    · exact ⟨[], t, .nil t, fun u t₁ b t₂ hS hG => h ⟨u, t₁, b, t₂, hS, hG⟩⟩

theorem exists_sepList (hDt : D t) (hs : c.Shows s t) : ∃ bs t', SepList S G t bs t' ∧
    (bs = [] → ∀ b t₁, ¬ G t b t₁) ∧ (bs ≠ [] → ∀ u t₁ b t₂, S t' u t₁ → ¬ G t₁ b t₂) := by
  by_cases h : ∃ b t₁, G t b t₁
  · obtain ⟨b, t₁, hG⟩ := h
    obtain ⟨w, rfl, -⟩ := helem.parses hDt hs hG
    obtain ⟨bs, t', hrest, hstop⟩ := exists_sepRest hsep helem hD hlt (hD _ _ hDt) (c.shows_drop hs)
    exact ⟨b :: bs, t', .cons hG hrest, fun hnil => absurd hnil (List.cons_ne_nil _ _), fun _ => hstop⟩
  · exact ⟨[], t, .nil t, fun _ b t₁ hG => h ⟨b, t₁, hG⟩, fun hne => absurd rfl hne⟩

/-- A separated list and its closing: the loop takes the elements that the grammar has when neither a
separator nor an element can start where the closing can. -/
theorem recognizes_sepBy (push : δ → β → δ) (x : δ) {close : Attempt σ γ} {C : Grammar α γ}
    (hclose : Recognizes c D close C) (hsepClose : ∀ {t u t' w t''}, S t u t' → ¬ C t w t'')
    (helemClose : ∀ {t b t' w t''}, G t b t' → ¬ C t w t'') :
    Recognizes c D (Attempt.bind (sepBy sep elem push x) fun y => Attempt.map (fun _ => y) close)
      fun t y t' => ∃ bs t₁ u, SepList S G t bs t₁ ∧ C t₁ u t' ∧ y = bs.foldl push x := by
  constructor
  · rintro s t y t' hDt hs ⟨bs, t₁, u, hlist, hC, hy⟩
    -- an empty list is followed by the closing, where no element starts
    have hnil : bs = [] → ∀ b t₂, ¬ G t b t₂ := by
      rintro rfl b t₂ hG
      cases hlist
      exact helemClose hG hC
    obtain ⟨w, rfl, helems⟩ := hlist.elements hsep helem hD hDt hs hnil
      fun _ u' t₂ b t₃ hS _ => hsepClose hS hC
    obtain ⟨w', rfl, hrun⟩ := hclose.parses (hD _ _ hDt) (c.shows_drop hs) hC
    refine ⟨w ++ w', (List.append_assoc _ _ _).symm, ?_⟩
    rw [bind_some (sepBy_eq_some_iff.2 ⟨bs, helems, hy⟩), map_apply, hrun, c.drop_drop,
      List.length_append]
    rfl
  · intro s t hDt hs hno
    -- the loop takes the longest list, and behind it the closing fails
    obtain ⟨bs, t₁, hlist, hnil, hstop⟩ := exists_sepList hsep helem hD hlt hDt hs
    obtain ⟨w, rfl, helems⟩ := hlist.elements hsep helem hD hDt hs hnil hstop
    have hrun := hclose.fails (hD _ _ hDt) (c.shows_drop hs) fun u t' hC =>
      hno _ t' ⟨bs, t₁, u, hlist, hC, rfl⟩
    rw [bind_some (sepBy_eq_some_iff.2 ⟨bs, helems, rfl⟩), map_apply, hrun]
    rfl

end

end Recognition
