import Noam.State

/-!
# The order of states (`state.hpp`)

`operator<=>` takes a state that overshot its end for an empty one and compares character by
character, so that it is the lexicographic order of the texts (`compare_eq`) and inherits the order
laws from it. `operator==` compares the sizes as they are. The two agree about two states except
where neither has a character and one overshot its end further than the other.
-/

namespace Noam

/-- The value of a `char`, which is a signed type on some platforms and an unsigned one on others. -/
def charValue (signed : Bool) (c : UInt8) : Int := if signed then c.toInt8.toInt else c.toNat

/-- `a[i] <=> b[i]` -/
def compareChars (signed : Bool) (c d : UInt8) : Ordering :=
  Ord.compare (charValue signed c) (charValue signed d)

/-- The loop of `operator<=>`: `n` characters from index `i` on, and `last` when none differ. -/
def compareLoop (signed : Bool) (a b : Nat → UInt8) (last : Ordering) : Nat → Nat → Ordering
  | 0, _ => last
  | n + 1, i =>
    match compareChars signed (a i) (b i) with
    | .eq => compareLoop signed a b last n (i + 1)
    | order => order

/-- `operator<=>` -/
protected def State.compare (signed : Bool) (mem : Memory) (st other : State) : Ordering :=
  let s1 := if st.size < 0 then 0 else st.size
  let s2 := if other.size < 0 then 0 else other.size
  let len := if s1 < s2 then s1 else s2
  compareLoop signed (st.get mem) (other.get mem) (Ord.compare s1 s2) len.toNat 0

/-! ### Characters -/

theorem charValue_inj {signed : Bool} {c d : UInt8} (h : charValue signed c = charValue signed d) :
    c = d := by
  cases signed
  · simp only [charValue, Bool.false_eq_true, if_false, Int.natCast_inj] at h
    exact UInt8.toNat_inj.1 h
  · simp only [charValue, if_true] at h
    exact UInt8.toBitVec_inj.1 (congrArg Int8.toBitVec (Int8.toInt_inj.1 h))

instance (signed : Bool) : Std.TransCmp (compareChars signed) where
  eq_swap := Std.OrientedOrd.eq_swap
  isLE_trans := Std.TransOrd.isLE_trans

instance (signed : Bool) : Std.LawfulEqCmp (compareChars signed) where
  compare_self := Std.ReflOrd.compare_self
  eq_of_compare h := charValue_inj (Std.LawfulEqOrd.eq_of_compare h)

theorem compareChars_eq_lt {signed : Bool} {c d : UInt8} :
    compareChars signed c d = .lt ↔ charValue signed c < charValue signed d := Int.compare_eq_lt

/-- What the comparison of two texts says is the order of the lists of their character values. -/
theorem compareLex_eq_lt {signed : Bool} {s t : List UInt8} :
    List.compareLex (compareChars signed) s t = .lt ↔
      s.map (charValue signed) < t.map (charValue signed) := by
  induction s generalizing t with
  | nil => cases t <;> simp [List.compareLex_nil_nil, List.compareLex_nil_cons]
  | cons c s ih =>
    cases t with
    | nil => simp [List.compareLex_cons_nil]
    | cons d t =>
      rw [List.compareLex_cons_cons, Ordering.then_eq_lt, compareChars_eq_lt, ih, List.map_cons,
        List.map_cons, List.cons_lt_cons_iff, Std.LawfulEqCmp.compare_eq_iff_eq]
      constructor
      · rintro (h | ⟨rfl, h⟩)
        · exact .inl h
        · exact .inr ⟨rfl, h⟩
      · rintro (h | ⟨h, h'⟩)
        · exact .inl h
        · exact .inr ⟨charValue_inj h, h'⟩

/-! ### States -/

/-- The loop compares `n` characters; of the `k` and `l` that are left behind them one is `0`. -/
theorem compareLoop_eq (signed : Bool) (mem : Memory) (p q : Nat) {k l : Nat} (hkl : k = 0 ∨ l = 0)
    (n i : Nat) :
    compareLoop signed (fun i => mem (p + i)) (fun i => mem (q + i)) (Ord.compare (k : Int) l) n i =
      List.compareLex (compareChars signed) (mem.read (p + i) (n + k)) (mem.read (q + i) (n + l)) := by
  induction n generalizing i with
  | zero =>
    simp only [compareLoop, Nat.zero_add]
    rcases k with _ | k <;> rcases l with _ | l
    · rfl
    · simp only [Memory.read, List.compareLex_nil_cons]
      exact Int.compare_eq_lt.2 (by omega)
    · simp only [Memory.read, List.compareLex_cons_nil]
      exact Int.compare_eq_gt.2 (by omega)
    · simp at hkl
  | succ n ih =>
    rw [Nat.add_right_comm n 1 k, Nat.add_right_comm n 1 l]
    simp only [compareLoop, Memory.read, List.compareLex_cons_cons]
    rw [ih (i + 1)]
    cases compareChars signed (mem (p + i)) (mem (q + i)) <;> rfl

namespace State
variable {signed : Bool} {mem : Memory} {a b c : State}

theorem clamp_size (st : State) :
    (if st.size < 0 then 0 else st.size) = ((st._end - st._begin : Nat) : Int) := by
  by_cases h : st._begin ≤ st._end
  · rw [if_neg (by simp only [size]; omega), size]; omega
  · rw [if_pos (by simp only [size]; omega)]; omega

/-- `operator<=>` is the lexicographic comparison of the texts. -/
theorem compare_eq :
    a.compare signed mem b = List.compareLex (compareChars signed) (a.text mem) (b.text mem) := by
  -- of the two texts, one is as long as the part that the loop compares
  obtain ⟨n, k, l, hkl, ha, hb⟩ : ∃ n k l, (k = 0 ∨ l = 0) ∧ a._end - a._begin = n + k ∧
      b._end - b._begin = n + l :=
    ⟨min (a._end - a._begin) (b._end - b._begin), _, _,
      by omega, (Nat.add_sub_cancel' (by omega)).symm, (Nat.add_sub_cancel' (by omega)).symm⟩
  have hlen : (if ((n + k : Nat) : Int) < (n + l : Nat) then ((n + k : Nat) : Int)
      else (n + l : Nat)).toNat = n := by
    split <;> omega
  have hlast : Ord.compare ((n + k : Nat) : Int) (n + l : Nat) = Ord.compare (k : Int) l := by
    simp [Int.compare_eq_ite_lt]
  simp only [State.compare, clamp_size, text, ha, hb, hlen, hlast]
  exact compareLoop_eq signed mem a._begin b._begin hkl n 0

/-- `operator==` compares the sizes as they are, overshot or not. -/
theorem eq_eq_true : a.eq mem b = true ↔ a.size = b.size ∧ a.text mem = b.text mem := by
  by_cases ha : a.Valid <;> by_cases hb : b.Valid
  · rw [eq_iff ha hb, size_eq mem ha, size_eq mem hb]
    exact ⟨fun h => ⟨by rw [h], h⟩, fun h => h.2⟩
  all_goals simp only [Valid] at ha hb
  · rw [State.eq, if_pos (by simp only [size, bne_iff_ne, ne_eq]; omega)]
    simp only [Bool.false_eq_true, size, false_iff, not_and]
    omega
  · rw [State.eq, if_pos (by simp only [size, bne_iff_ne, ne_eq]; omega)]
    simp only [Bool.false_eq_true, size, false_iff, not_and]
    omega
  · have hn : b.size.toNat = 0 := by simp only [size]; omega
    rw [State.eq, hn, text_eq_nil.2 (by omega), text_eq_nil.2 (by omega)]
    by_cases h : b.size = a.size
    · simp [h, sameChars]
    · simp [h, Ne.symm h]

theorem compare_eq_eq : a.compare signed mem b = .eq ↔ a.text mem = b.text mem := by
  rw [compare_eq, Std.LawfulEqCmp.compare_eq_iff_eq]

theorem compare_swap : b.compare signed mem a = (a.compare signed mem b).swap := by
  rw [compare_eq, compare_eq]; exact Std.OrientedCmp.eq_swap

theorem compare_trans (hab : (a.compare signed mem b).isLE) (hbc : (b.compare signed mem c).isLE) :
    (a.compare signed mem c).isLE := by
  rw [compare_eq] at *; exact Std.TransCmp.isLE_trans hab hbc

theorem compare_lt_of_empty (ha : a.empty = true) (hb : b.has = true) :
    a.compare signed mem b = .lt := by
  rw [empty_eq_true] at ha
  rw [has_eq_true] at hb
  have hne : b.text mem ≠ [] := fun h => absurd (text_eq_nil.1 h) (by omega)
  obtain ⟨c, t, ht⟩ := List.exists_cons_of_ne_nil hne
  rw [compare_eq, text_eq_nil.2 ha, ht, List.compareLex_nil_cons]

/-- What the comparison operators have to satisfy, of three states, to be one order. -/
structure ConsistentOrder (signed : Bool) (mem : Memory) (a b c : State) : Prop where
  refl : a.compare signed mem a = .eq
  swap : b.compare signed mem a = (a.compare signed mem b).swap
  antisymm : (a.compare signed mem b).isLE → (b.compare signed mem a).isLE →
    a.compare signed mem b = .eq
  trans : (a.compare signed mem b).isLE → (b.compare signed mem c).isLE →
    (a.compare signed mem c).isLE
  lexicographic : a.compare signed mem b = .lt ↔
    (a.text mem).map (charValue signed) < (b.text mem).map (charValue signed)
  empty_lt : a.empty = true → b.has = true → a.compare signed mem b = .lt
  eq_iff : a.compare signed mem b = .eq ↔ a.eq mem b = true

/-- The operators are one order exactly of states of which one has a character, or that have the
same size. -/
theorem consistentOrder_iff (signed : Bool) (mem : Memory) (a b c : State) :
    ConsistentOrder signed mem a b c ↔ 0 < a.size ∨ 0 < b.size ∨ a.size = b.size := by
  constructor
  · intro h
    by_contra hn
    simp only [size] at hn
    have ht : a.text mem = b.text mem := by
      rw [text_eq_nil.2 (by omega), text_eq_nil.2 (by omega)]
    have hs := (eq_eq_true.1 (h.eq_iff.1 (compare_eq_eq.2 ht))).1
    simp only [size] at hs; omega
  · intro h
    refine ⟨compare_eq_eq.2 rfl, compare_swap, fun hab hba => ?_, compare_trans, ?_,
      compare_lt_of_empty, ?_⟩
    · rw [compare_swap] at hba
      cases ho : a.compare signed mem b <;> simp_all
    · rw [compare_eq, compareLex_eq_lt]
    · rw [compare_eq_eq, eq_eq_true]
      refine ⟨fun ht => ⟨?_, ht⟩, fun he => he.2⟩
      have hl := congrArg List.length ht
      simp only [length_text, size] at hl h ⊢
      omega

/-- A state that overshot its end by one, and an empty one: `operator<=>` calls them equivalent and
`operator==` different. -/
theorem not_consistentOrder_overshot :
    ¬ ConsistentOrder true (Memory.ofText []) (.substr (.ofLength 0) 1) (.ofLength 0) nullState := by
  intro h
  have he := h.eq_iff.1 (by rfl)
  cases he

end State

end Noam
