import Noam.State

/-!
# Views cut from a view (`state.hpp`)

Whatever is cut from a view with `substr`, `remove_prefix` and `remove_suffix` is a part of it or
reports that it is empty (`run_within`), as long as `substr(start, count)` is not asked for characters
from behind the end: `size() - start` is then a very large unsigned number instead of a negative one,
and the result has characters that the view does not have.
-/

namespace Noam

inductive ViewOp where
  | substr (start : Nat)
  | substrCount (start count : Nat)
  | removePrefix (n : Nat)
  | removeSuffix (n : Nat)
deriving DecidableEq, Repr

namespace ViewOp

def apply (st : State) : ViewOp → State
  | substr start => st.substr start
  | substrCount start count => st.substrCount start count
  | removePrefix n => st.removePrefix n
  | removeSuffix n => st.removeSuffix n

/-- The addresses that the operation computes are in the address space. -/
def NoWrap (st : State) : ViewOp → Prop
  | substr start => st._begin + start < 2 ^ 64
  | substrCount start count => st._begin + start < 2 ^ 64 ∧ (st.substrCount start count)._end < 2 ^ 64
  | removePrefix n => st._begin + n < 2 ^ 64
  | removeSuffix n => n ≤ st._end

/-- `substr(start, count)` asks for no character from behind the end. -/
def InBounds (st : State) : ViewOp → Prop
  | substrCount start count => (start : Int) ≤ st.size ∨ count = 0
  | _ => True

/-- The operations one after the other. -/
def run : State → List ViewOp → State := List.foldl apply

/-- Every operation of the sequence meets `P` where it is applied. -/
def Each (P : State → ViewOp → Prop) : State → List ViewOp → Prop
  | _, [] => True
  | st, op :: ops => P st op ∧ Each P (op.apply st) ops

end ViewOp

namespace State
variable {mem : Memory} {st s t u v : State} {op : ViewOp} {ops : List ViewOp} {start count : Nat}

/-- The characters of `t` are characters of `st`. -/
structure Within (t st : State) : Prop where
  begin_le : st._begin ≤ t._begin
  end_le : t._end ≤ st._end

theorem Within.refl (st : State) : st.Within st := ⟨Nat.le_refl _, Nat.le_refl _⟩

theorem Within.trans (h : t.Within s) (h' : u.Within t) : u.Within s :=
  ⟨Nat.le_trans h.begin_le h'.begin_le, Nat.le_trans h'.end_le h.end_le⟩

theorem Within.has (h : t.Within s) (ht : t.has = true) : s.has = true := by
  have := h.begin_le
  have := h.end_le
  rw [has_eq_true] at *; omega

theorem Within.text_eq (h : t.Within s) :
    t.text mem = ((s.text mem).drop (t._begin - s._begin)).take (t._end - t._begin) := by
  have := h.begin_le
  have := h.end_le
  rw [text, text, Memory.drop_read, Memory.take_read, Nat.add_sub_cancel' h.begin_le,
    Nat.min_eq_left (by omega)]

theorem Within.text_infix (h : t.Within s) : t.text mem <:+: s.text mem := by
  rw [h.text_eq]
  exact (List.take_prefix _ _).isInfix.trans (List.drop_suffix _ _).isInfix

/-! ### `substr(start, count)` -/

theorem toSizeT_of_le (h : (start : Int) ≤ st.size) (hend : st._end < 2 ^ 64) :
    toSizeT (st.size - start) = st._end - (st._begin + start) := by
  rw [toSizeT]
  simp only [size] at *
  omega

/-- From behind the end the unsigned difference is a number of characters, not a negative one. -/
theorem toSizeT_pos (h : st.size < start) (hstart : st._begin + start < 2 ^ 64) :
    0 < toSizeT (st.size - start) := by
  rw [toSizeT]
  simp only [size] at *
  omega

@[simp] theorem substrCount_begin : (st.substrCount start count)._begin = st._begin + start := by
  simp only [substrCount]; split <;> rfl

theorem substrCount_end : (st.substrCount start count)._end =
    st._begin + start + min count (toSizeT (st.size - start)) := by
  simp only [substrCount]
  split
  · rw [Nat.min_eq_right (by omega)]
  · rw [Nat.min_eq_left (by omega)]

theorem text_substrCount : (st.substrCount start count).text mem =
    mem.read (st._begin + start) (min count (toSizeT (st.size - start))) := by
  rw [text, substrCount_begin, substrCount_end, Nat.add_sub_cancel_left]

/-- `substr(start, count)` denotes the first `count` characters of `substr(start)`, or all of them,
exactly when it asks for none from behind the end. -/
theorem text_substrCount_eq_take_iff (hend : st._end < 2 ^ 64) (hstart : st._begin + start < 2 ^ 64) :
    (st.substrCount start count).text mem = ((st.substr start).text mem).take count ↔
      (start : Int) ≤ st.size ∨ count = 0 := by
  rw [text_substrCount, text, substr, Memory.take_read]
  rcases Int.lt_or_le st.size start with h | h
  · have hpos := toSizeT_pos h hstart
    have hnil : st._end - (st._begin + start) = 0 := by simp only [size] at h; omega
    rw [hnil, Nat.min_zero]
    constructor
    · intro heq
      have hlen := congrArg List.length heq
      simp only [Memory.length_read] at hlen
      omega
    · rintro (h' | rfl)
      · omega
      · simp
  · rw [toSizeT_of_le h hend]
    exact ⟨fun _ => .inl h, fun _ => rfl⟩

/-! ### Sequences of operations -/

/-- An operation in bounds cuts a part of the state it is applied to, or the result is empty. -/
theorem within_apply (hop : op.InBounds st) (hend : st._end < 2 ^ 64)
    (hhas : (op.apply st).has = true) : (op.apply st).Within st := by
  cases op with
  | substr start => exact ⟨Nat.le_add_right .., Nat.le_refl _⟩
  | removePrefix n => exact ⟨Nat.le_add_right .., Nat.le_refl _⟩
  | removeSuffix n => exact ⟨Nat.le_refl _, Nat.sub_le ..⟩
  | substrCount start count =>
    simp only [ViewOp.apply, has_eq_true, substrCount_begin, substrCount_end] at hhas ⊢
    refine ⟨by simp, ?_⟩
    rw [substrCount_end]
    rcases hop with h | rfl
    · rw [toSizeT_of_le h hend] at hhas ⊢
      simp only [size] at h
      omega
    · simp at hhas

/-- Any other one yields characters from behind the end. -/
theorem within_apply_iff (hend : st._end < 2 ^ 64) (hwrap : op.NoWrap st) :
    ((op.apply st).has = true → (op.apply st).Within st) ↔ op.InBounds st := by
  constructor
  · intro h
    cases op with
    | substrCount start count =>
      by_contra hn
      simp only [ViewOp.InBounds, not_or, Int.not_le] at hn
      have hpos := toSizeT_pos hn.1 hwrap.1
      simp only [ViewOp.apply, has_eq_true, substrCount_begin, substrCount_end] at h
      have hle := (h (by omega)).end_le
      have hsize := hn.1
      simp only [size] at hsize
      rw [substrCount_end] at hle
      omega
    | _ => trivial
  · intro h
    exact within_apply h hend

theorem end_apply_lt (hend : st._end < 2 ^ 64) (hwrap : op.NoWrap st) :
    (op.apply st)._end < 2 ^ 64 := by
  cases op with
  | substrCount start count => exact hwrap.2
  | removeSuffix n => exact Nat.lt_of_le_of_lt (Nat.sub_le ..) hend
  | _ => exact hend

end State

namespace ViewOp
open State
variable {mem : Memory} {st v : State} {op : ViewOp} {ops : List ViewOp} {start count : Nat}

theorem end_run_lt (hend : st._end < 2 ^ 64) (hops : Each (fun st op => op.NoWrap st) st ops) :
    (run st ops)._end < 2 ^ 64 := by
  induction ops generalizing st with
  | nil => exact hend
  | cons op ops ih => exact ih (end_apply_lt hend hops.1) hops.2

/-- What is cut from a part of `v` is a part of `v`, or empty. -/
theorem run_within (hend : st._end < 2 ^ 64) (hst : st.has = true → st.Within v)
    (hops : Each (fun st op => op.NoWrap st ∧ op.InBounds st) st ops)
    (hhas : (run st ops).has = true) : (run st ops).Within v := by
  induction ops generalizing st with
  | nil => exact hst hhas
  | cons op ops ih =>
    obtain ⟨⟨hwrap, hin⟩, hops⟩ := hops
    refine ih (end_apply_lt hend hwrap) (fun h => ?_) hops hhas
    have hw := within_apply hin hend h
    exact (hst (hw.has h)).trans hw

/-- Views never grow: what a sequence of operations in bounds leaves is a part of `v` or empty. In
whatever state an operation is called, it is the ones in bounds that cut a part of that state or
nothing, and `substr(start, count)` denotes the first `count` characters of `substr(start)` exactly
when it is in bounds. -/
theorem views_never_grow (mem : Memory) (v : State) (hend : v._end < 2 ^ 64) :
    (∀ ops, Each (fun st op => op.NoWrap st ∧ op.InBounds st) v ops → (run v ops).has = true →
      (run v ops).Within v ∧ (run v ops).text mem <:+: v.text mem) ∧
    (∀ ops, Each (fun st op => op.NoWrap st) v ops →
      (∀ op : ViewOp, op.NoWrap (run v ops) →
        (((op.apply (run v ops)).has = true → (op.apply (run v ops)).Within (run v ops)) ↔
          op.InBounds (run v ops))) ∧
      ∀ start count, (substrCount start count).NoWrap (run v ops) →
        (((run v ops).substrCount start count).text mem =
            (((run v ops).substr start).text mem).take count ↔
          (start : Int) ≤ (run v ops).size ∨ count = 0)) := by
  constructor
  · intro ops hops hhas
    have hw := run_within hend (fun _ => Within.refl v) hops hhas
    exact ⟨hw, hw.text_infix⟩
  · intro ops hops
    have hrun := end_run_lt hend hops
    exact ⟨fun op hwrap => within_apply_iff hrun hwrap, fun start count hwrap =>
      text_substrCount_eq_take_iff hrun hwrap.1⟩

/-- The second character of two, cut with the suffix removed and from the whole view. -/
theorem views_never_grow_two :
    let v := State.ofLength 2
    let mem := Memory.ofText [ch 'a', ch 'b']
    (run v [removePrefix 1, substrCount 0 5]).text mem <:+: v.text mem ∧
      (((run v []).substrCount 1 1).text mem = (((run v []).substr 1).text mem).take 1 ↔
        (1 : Int) ≤ (run v []).size ∨ 1 = 0) := by
  intro v mem
  obtain ⟨hruns, hsubstr⟩ := views_never_grow mem v (by decide)
  refine ⟨(hruns _ ?_ (by rfl)).2, (hsubstr [] trivial).2 1 1 ⟨by decide, by decide⟩⟩
  exact ⟨⟨show 1 + 1 < 2 ^ 64 by decide, trivial⟩,
    ⟨⟨by decide, by decide⟩, .inl (by decide)⟩, trivial⟩

/-- `substr(3, 1)` of two characters is a view of one character, from behind their end. -/
theorem substrCount_behind_end :
    let v := State.ofLength 2
    let mem := Memory.ofText [ch 'a', ch 'b']
    Each (fun st op => op.NoWrap st) v [substrCount 3 1] ∧ (run v [substrCount 3 1]).has = true ∧
      ¬ (run v [substrCount 3 1]).Within v ∧
      (v.substrCount 3 1).text mem ≠ ((v.substr 3).text mem).take 1 := by
  refine ⟨⟨⟨by decide, by decide⟩, trivial⟩, by rfl, fun h => ?_, fun h => ?_⟩
  · exact absurd h.end_le (by decide)
  · have hlen := congrArg List.length h
    revert hlen; decide

end ViewOp

end Noam
