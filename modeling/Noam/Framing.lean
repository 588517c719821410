import Mathlib.Data.List.Basic
import Mathlib.Tactic.Basic

/-!
# Words framed by delimiters

A word is framed when it stands between an opening and an end delimiter and the end delimiter that
closes it is the first one that counts. It is read from left to right in units: an escape together with
an end delimiter right behind it, an escape with anything else behind it, or one character where no
escape starts. An end delimiter counts where a unit would start. A text has at most one framed word.
-/

namespace Framing
universe u
variable {α : Type u} (end_ escape : List α)

/-- `w` splits into units in front of `t`, and `end_` starts at the start of none of them. -/
inductive Units : List α → List α → Prop
  | nil (t : List α) : Units [] t
  | escapeEnd {w t : List α} (hend : ¬ end_ <+: escape ++ (end_ ++ (w ++ t))) (h : Units w t) :
      Units (escape ++ (end_ ++ w)) t
  | escape {w t : List α} (hend : ¬ end_ <+: escape ++ (w ++ t)) (hnext : ¬ end_ <+: w ++ t)
      (h : Units w t) : Units (escape ++ w) t
  | char {c : α} {w t : List α} (hend : ¬ end_ <+: c :: (w ++ t)) (hescape : ¬ escape <+: c :: (w ++ t))
      (h : Units w t) : Units (c :: w) t

/-- `text` is `begin_`, the framed word `w`, `end_` and `r`. -/
structure Framed (begin_ : List α) (text w r : List α) : Prop where
  text_eq : text = begin_ ++ (w ++ (end_ ++ r))
  units : Units end_ escape w (end_ ++ r)

variable {end_ escape}

/-- In front of its end delimiter a word starts with `end_` only when it is empty. -/
theorem Units.eq_nil {w t : List α} (h : Units end_ escape w t) (hend : end_ <+: w ++ t) : w = [] := by
  cases h with
  | nil => rfl
  | escapeEnd h₁ _ => exact absurd (by simpa using hend) h₁
  | escape h₁ _ _ => exact absurd (by simpa using hend) h₁
  | char h₁ _ _ => exact absurd hend h₁

theorem prefix_of_append_eq {a b c : List α} (h : c = a ++ b) : a <+: c := ⟨b, h.symm⟩

/-- Two splits of one text into a word of units and a rest that starts with the end delimiter are the
same: which unit comes first is decided by the text. -/
theorem Units.unique {w w' t t' : List α} (h : Units end_ escape w t) (h' : Units end_ escape w' t')
    (ht : end_ <+: t) (ht' : end_ <+: t') (heq : w ++ t = w' ++ t') : w = w' ∧ t = t' := by
  -- the first unit of `w` decides the first one of `w'`; every other kind contradicts what stands there
  induction h generalizing w' with
  | nil t =>
    obtain rfl := h'.eq_nil (heq ▸ ht)
    exact ⟨rfl, heq⟩
  | @escapeEnd w t hend h ih =>
    simp only [List.append_assoc] at heq
    cases h' with
    | nil => exact absurd (heq ▸ ht') hend
    | @escapeEnd w' _ _ h' =>
      simp only [List.append_assoc, List.append_cancel_left_eq] at heq
      obtain ⟨rfl, rfl⟩ := ih h' ht heq
      exact ⟨rfl, rfl⟩
    | escape _ hnext _ =>
      simp only [List.append_assoc, List.append_cancel_left_eq] at heq
      exact absurd (prefix_of_append_eq heq.symm) hnext
    | char _ hescape _ => exact absurd (prefix_of_append_eq heq.symm) hescape
  | @escape w t hend hnext h ih =>
    simp only [List.append_assoc] at heq
    cases h' with
    | nil => exact absurd (heq ▸ ht') hend
    | escapeEnd _ _ =>
      simp only [List.append_assoc, List.append_cancel_left_eq] at heq
      exact absurd (prefix_of_append_eq heq) hnext
    | @escape w' _ _ _ h' =>
      simp only [List.append_assoc, List.append_cancel_left_eq] at heq
      obtain ⟨rfl, rfl⟩ := ih h' ht heq
      exact ⟨rfl, rfl⟩
    | char _ hescape _ => exact absurd (prefix_of_append_eq heq.symm) hescape
  | @char c w t hend hescape h ih =>
    rw [List.cons_append] at heq
    cases h' with
    | nil => exact absurd (heq ▸ ht') hend
    | escapeEnd _ _ =>
      rw [List.append_assoc] at heq
      exact absurd (prefix_of_append_eq heq) hescape
    | escape _ _ _ =>
      rw [List.append_assoc] at heq
      exact absurd (prefix_of_append_eq heq) hescape
    | @char c' w' _ _ _ h' =>
      rw [List.cons_append, List.cons.injEq] at heq
      obtain ⟨rfl, heq⟩ := heq
      obtain ⟨rfl, rfl⟩ := ih h' ht heq
      exact ⟨rfl, rfl⟩

/-- A text has at most one framed word. -/
theorem Framed.unique {begin_ text w w' r r' : List α} (h : Framed end_ escape begin_ text w r)
    (h' : Framed end_ escape begin_ text w' r') : w = w' ∧ r = r' := by
  obtain ⟨hw, hr⟩ := h.units.unique h'.units (List.prefix_append _ _) (List.prefix_append _ _)
    (List.append_cancel_left (h.text_eq.symm.trans h'.text_eq))
  exact ⟨hw, List.append_cancel_left hr⟩

theorem singleton_prefix_iff {a : α} {l : List α} : [a] <+: l ↔ l.head? = some a := by
  cases l with
  | nil => simp
  | cons c l => simp [List.cons_prefix_cons, eq_comm]

/-- With delimiters of one character only the first character behind the word matters. -/
theorem Units.congr_head {a b : α} {w t t' : List α} (h : Units [a] [b] w t)
    (ht : t.head? = t'.head?) : Units [a] [b] w t' := by
  induction h with
  | nil => exact .nil t'
  | escapeEnd hend _ ih => exact .escapeEnd (by simpa [singleton_prefix_iff] using hend) (ih ht)
  | escape hend hnext _ ih =>
    refine .escape (by simpa [singleton_prefix_iff] using hend) ?_ (ih ht)
    rw [singleton_prefix_iff, List.head?_append] at hnext ⊢
    rwa [← ht]
  | char hend hescape _ ih =>
    exact .char (by simpa [singleton_prefix_iff] using hend)
      (by simpa [singleton_prefix_iff] using hescape) (ih ht)

end Framing
