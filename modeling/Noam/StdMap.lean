import Noam.Combinators

/-!
# `std::map`, as far as `parse_map` uses it

A map is the list of its entries in the order of their keys. `emplace` puts a new entry before the
first one with a greater key, and does nothing when there is one with the same key.
-/

namespace Noam

abbrev StdMap (K X : Type) := List (K × X)

namespace StdMap
variable {K X : Type} [DecidableEq K]

def find? : StdMap K X → K → Option X
  | [], _ => none
  | e :: m, k => if e.1 = k then some e.2 else find? m k

variable [LT K] [DecidableLT K]

def insertBefore (k : K) (x : X) : StdMap K X → StdMap K X
  | [] => [(k, x)]
  | e :: m => if k < e.1 then (k, x) :: e :: m else e :: insertBefore k x m

def emplace (m : StdMap K X) (k : K) (x : X) : StdMap K X :=
  if (find? m k).isSome then m else insertBefore k x m

theorem find?_insertBefore_self {m : StdMap K X} {k : K} (x : X) (h : find? m k = none) :
    find? (insertBefore k x m) k = some x := by
  induction m with
  | nil => simp [insertBefore, find?]
  | cons e m ih =>
    by_cases he : e.1 = k
    · simp [find?, he] at h
    · rw [find?, if_neg he] at h
      rw [insertBefore]
      split
      · simp [find?]
      · rw [find?, if_neg he, ih h]

theorem find?_insertBefore_of_ne {m : StdMap K X} {k k' : K} (x : X) (h : k' ≠ k) :
    find? (insertBefore k x m) k' = find? m k' := by
  induction m with
  | nil => simp [insertBefore, find?, h.symm]
  | cons e m ih =>
    rw [insertBefore]
    split
    · rw [find?, if_neg h.symm]
    · rw [find?, find?, ih]

/-! ### The order of the entries -/

section
variable {m entries : StdMap K X} {e : K × X} {k : K} {x : X}

/-- The keys of a map ascend. -/
def Sorted (m : StdMap K X) : Prop := m.Pairwise (·.1 < ·.1)

omit [DecidableEq K] in
theorem mem_insertBefore (h : e ∈ insertBefore k x m) : e = (k, x) ∨ e ∈ m := by
  induction m with
  | nil => exact .inl (List.mem_singleton.1 h)
  | cons a m ih =>
    rw [insertBefore] at h
    split at h
    · exact List.mem_cons.1 h
    · rcases List.mem_cons.1 h with rfl | h
      · exact .inr List.mem_cons_self
      · exact (ih h).imp_right (List.mem_cons_of_mem a)

theorem mem_emplace (h : e ∈ emplace m k x) : e = (k, x) ∨ e ∈ m := by
  unfold emplace at h
  split at h
  · exact .inr h
  · exact mem_insertBefore h

theorem mem_foldl_emplace (h : e ∈ entries.foldl (fun m e => emplace m e.1 e.2) m) :
    e ∈ m ∨ e ∈ entries := by
  induction entries generalizing m with
  | nil => exact .inl h
  | cons a entries ih =>
    rcases ih h with h | h
    · exact (mem_emplace h).elim (fun he => .inr (he ▸ List.mem_cons_self)) .inl
    · exact .inr (List.mem_cons_of_mem a h)

variable [Trans (· < · : K → K → Prop) (· < · : K → K → Prop) (· < · : K → K → Prop)]

section
variable [Std.Trichotomous (· < · : K → K → Prop)]

theorem Sorted.insertBefore (h : Sorted m) (hk : find? m k = none) (x : X) :
    Sorted (insertBefore k x m) := by
  induction m with
  | nil => exact List.pairwise_singleton _ _
  | cons e m ih =>
    obtain ⟨hlt, hm⟩ := List.pairwise_cons.1 h
    have hne : e.1 ≠ k := by
      intro he
      rw [find?, if_pos he] at hk
      cases hk
    rw [find?, if_neg hne] at hk
    rw [StdMap.insertBefore]
    split
    · rename_i hbefore
      refine List.pairwise_cons.2 ⟨fun a ha => ?_, h⟩
      rcases List.mem_cons.1 ha with rfl | ha
      · exact hbefore
      · exact Std.lt_trans hbefore (hlt a ha)
    · rename_i hnot
      -- the keys are neither in order nor the same, so they are in the other order
      have hafter : e.1 < k :=
        (Std.lt_trichotomy e.1 k).resolve_right fun h => h.elim hne hnot
      refine List.pairwise_cons.2 ⟨fun a ha => ?_, ih hm hk⟩
      rcases mem_insertBefore ha with rfl | ha
      · exact hafter
      · exact hlt a ha

theorem Sorted.emplace (h : Sorted m) (k : K) (x : X) : Sorted (emplace m k x) := by
  unfold StdMap.emplace
  rcases hk : find? m k with _ | y
  · exact h.insertBefore hk x
  · exact h

theorem Sorted.foldl_emplace (h : Sorted m) (entries : StdMap K X) :
    Sorted (entries.foldl (fun m e => StdMap.emplace m e.1 e.2) m) := by
  induction entries generalizing m with
  | nil => exact h
  | cons e entries ih => exact ih (h.emplace e.1 e.2)

end

section
variable [Std.Irrefl (· < · : K → K → Prop)]

omit [DecidableLT K] [Trans (· < · : K → K → Prop) (· < · : K → K → Prop) (· < · : K → K → Prop)] in
theorem find?_of_lt (h : ∀ e ∈ m, e.1 < k) : find? m k = none := by
  induction m with
  | nil => rfl
  | cons e m ih =>
    rw [find?, if_neg (Std.ne_of_lt (h e List.mem_cons_self))]
    exact ih fun a ha => h a (List.mem_cons_of_mem e ha)

omit [DecidableEq K] in
theorem insertBefore_of_lt (h : ∀ e ∈ m, e.1 < k) (x : X) : insertBefore k x m = m ++ [(k, x)] := by
  induction m with
  | nil => rfl
  | cons e m ih =>
    have hnot : ¬ k < e.1 := fun hlt => Std.lt_irrefl (Std.lt_trans hlt (h e List.mem_cons_self))
    rw [insertBefore, if_neg hnot, ih fun a ha => h a (List.mem_cons_of_mem e ha)]
    rfl

/-- Entries in ascending order stay in this order. -/
theorem foldl_emplace_eq (h : Sorted (m ++ entries)) :
    entries.foldl (fun m e => emplace m e.1 e.2) m = m ++ entries := by
  induction entries generalizing m with
  | nil => exact (List.append_nil m).symm
  | cons e entries ih =>
    have hlt : ∀ a ∈ m, a.1 < e.1 := fun a ha =>
      (List.pairwise_append.1 h).2.2 a ha e List.mem_cons_self
    have hlast : emplace m e.1 e.2 = m ++ [e] := by
      rw [emplace, find?_of_lt hlt]
      exact insertBefore_of_lt hlt e.2
    rw [List.append_cons] at h ⊢
    rw [List.foldl_cons, hlast]
    exact ih h

end

end

instance : EmplaceMap (StdMap K X) K X where
  empty := []
  emplace := emplace
  find? := find?
  find?_empty _ := rfl
  find?_emplace_self m k x := by
    unfold emplace
    rcases h : find? m k with _ | y
    · simp [find?_insertBefore_self x h]
    · simp [h]
  find?_emplace_of_ne m k k' x h := by
    unfold emplace
    split
    · rfl
    · exact find?_insertBefore_of_ne x h

end StdMap

end Noam
