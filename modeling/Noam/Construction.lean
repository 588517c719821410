import Mathlib.Data.List.TakeWhile
import Noam.Loop
import Noam.Rendering

/-!
# Making a state (`state.hpp`)

A string literal selects the constructor for a C string, which is no template and is preferred to the one
for an array; it looks for the first NUL. The array constructor is left to arrays of `char` that is not
`const`, where the pointer needs one conversion more; it and `_st` know the length. They all agree on the
texts without a NUL.
-/

namespace Noam
open Loop

variable {mem : Memory} {p e : Nat} {t : List UInt8}

namespace State

/-- `while (*c_string) c_string++` -/
def endRound (mem : Memory) (cString : Nat) : Option (Round Nat Nat) :=
  return if mem cString != 0 then .next (cString + 1) else .done cString

def getEndOfCString (mem : Memory) (cString : Nat) : Option Nat := loop (endRound mem) cString

/-- `state(char const* c_ctr)` -/
def ofCString (mem : Memory) (cCtr : Nat) : Option State := do
  return ⟨cCtr, ← getEndOfCString mem cCtr⟩

/-- `state(char const (&array)[N])`, which takes a terminator off. It is selected by an array that is not
`const`. -/
def ofArray (mem : Memory) (array N : Nat) : State :=
  ⟨array, array + N - if mem (array + N - 1) == 0 then 1 else 0⟩

/-- `state(char const* begin, size_t size)`, also `operator"" _st` -/
def ofSize (begin size : Nat) : State := ⟨begin, begin + size⟩

/-! ### C strings -/

/-- `e` is the address of the first NUL from `p` on. -/
structure FirstNul (mem : Memory) (p e : Nat) : Prop where
  le : p ≤ e
  nul : mem e = 0
  ne : ∀ q, p ≤ q → q < e → mem q ≠ 0

theorem FirstNul.self (h : mem p = 0) : FirstNul mem p p := ⟨le_rfl, h, fun q hq hlt => by omega⟩

theorem FirstNul.step (h : FirstNul mem (p + 1) e) (hp : mem p ≠ 0) : FirstNul mem p e := by
  refine ⟨Nat.le_of_succ_le h.le, h.nul, fun q hq hlt => ?_⟩
  rcases Nat.eq_or_lt_of_le hq with rfl | hq
  · exact hp
  · exact h.ne q hq hlt

theorem endRound_nul (h : mem p = 0) : endRound mem p = some (.done p) := by simp [endRound, h]

theorem endRound_ne (h : mem p ≠ 0) : endRound mem p = some (.next (p + 1)) := by simp [endRound, h]

theorem getEndOfCString_eq_some_iff : getEndOfCString mem p = some e ↔ FirstNul mem p e := by
  constructor
  · intro h
    refine loop_induct (motive := fun p e => FirstNul mem p e) (fun p e hround => ?_)
      (fun p p' e hround ih => ?_) h
    · by_cases hp : mem p = 0
      · rw [endRound_nul hp] at hround
        cases hround
        exact .self hp
      · rw [endRound_ne hp] at hround
        cases hround
    · by_cases hp : mem p = 0
      · rw [endRound_nul hp] at hround
        cases hround
      · rw [endRound_ne hp] at hround
        cases hround
        exact ih.step hp
  · rintro ⟨hle, hnul, hne⟩
    induction hle using Nat.decreasingInduction with
    | self => exact loop_done (endRound_nul hnul)
    | of_succ q hq ih =>
      rw [getEndOfCString, loop_next (endRound_ne (hne q le_rfl hq))]
      exact ih fun q' hq' => hne q' (Nat.le_of_succ_le hq')

theorem firstNul_read : (t : List UInt8) → (p : Nat) → mem.read p t.length = t →
    mem (p + t.length) = 0 → FirstNul mem p (p + (t.takeWhile (· ≠ 0)).length)
  | [], _, _, hnul => .self hnul
  | c :: t, p, hread, hnul => by
    obtain ⟨rfl, htail⟩ := List.cons.inj hread
    rw [List.length_cons, ← Nat.add_assoc, Nat.add_right_comm] at hnul
    by_cases hp : mem p = 0
    · simpa [hp] using FirstNul.self hp
    · simpa [hp, Nat.add_assoc, Nat.add_comm 1] using (firstNul_read t (p + 1) htail hnul).step hp

/-! ### String literals and arrays -/

/-- The characters `t` stand at the address `p` with a NUL behind them, as a string literal does and an array
that is initialised with one. -/
structure TerminatedAt (mem : Memory) (p : Nat) (t : List UInt8) : Prop where
  ne_null : p ≠ 0
  read : mem.read p t.length = t
  nul : mem (p + t.length) = 0

theorem TerminatedAt.shows {s : List UInt8} (h : TerminatedAt mem p t) (hs : s <+: t) :
    (ofSize p s.length).Shows mem s := by
  have hgood : (p != 0) = true := by simpa using h.ne_null
  refine ⟨Nat.le_add_right p s.length, hgood, ?_⟩
  have hread : mem.read p (min s.length t.length) = s := by
    rw [← Memory.take_read, h.read, ← List.prefix_iff_eq_take.1 hs]
  rw [Nat.min_eq_left hs.length_le] at hread
  rw [text, ofSize, Nat.add_sub_cancel_left, hread]

theorem TerminatedAt.ofArray_eq (h : TerminatedAt mem p t) :
    ofArray mem p (t.length + 1) = ofSize p t.length := by
  simp [ofArray, ofSize, h.nul, ← Nat.add_assoc]

theorem takeWhile_ne_zero_eq_self_iff : t.takeWhile (· ≠ 0) = t ↔ 0 ∉ t := by
  rw [List.takeWhile_eq_self_iff]
  constructor
  · intro h hnul
    simpa using h 0 hnul
  · intro h c hc
    have hne : c ≠ 0 := fun h0 => h (h0 ▸ hc)
    simpa using hne

/-- The states made of a literal at `p` and of an array at `q` that holds its characters. `_st` and the array
constructor view all the characters; the literal itself is viewed up to its first NUL, so that it equals the
others if and only if it has none. -/
theorem literal_states {q : Nat} (h : TerminatedAt mem p t) (hq : TerminatedAt mem q t) :
    (ofSize p t.length).Shows mem t ∧
    ofArray mem q (t.length + 1) = ofSize q t.length ∧
    (ofArray mem q (t.length + 1)).eq mem (ofSize p t.length) = true ∧
    ∃ st, ofCString mem p = some st ∧ st.Shows mem (t.takeWhile (· ≠ 0)) ∧
      (st.eq mem (ofArray mem q (t.length + 1)) = true ↔ 0 ∉ t) ∧
      (st.eq mem (ofSize p t.length) = true ↔ 0 ∉ t) ∧ (st = ofSize p t.length ↔ 0 ∉ t) := by
  have hwhole : (ofSize p t.length).Shows mem t := h.shows List.prefix_rfl
  have harray : (ofArray mem q (t.length + 1)).Shows mem t := by
    rw [hq.ofArray_eq]
    exact hq.shows List.prefix_rfl
  -- the part in front of the first NUL, where `get_end_of_c_string` stops
  have hpart : (ofSize p (t.takeWhile (· ≠ 0)).length).Shows mem (t.takeWhile (· ≠ 0)) :=
    h.shows (List.takeWhile_prefix _)
  refine ⟨hwhole, hq.ofArray_eq, ?_, ofSize p (t.takeWhile (· ≠ 0)).length, ?_, hpart, ?_, ?_, ?_⟩
  · rw [eq_iff harray.valid hwhole.valid, harray.text, hwhole.text]
  · rw [ofCString, getEndOfCString_eq_some_iff.2 (firstNul_read t p h.read h.nul)]
    rfl
  · rw [eq_iff hpart.valid harray.valid, hpart.text, harray.text, takeWhile_ne_zero_eq_self_iff]
  · rw [eq_iff hpart.valid hwhole.valid, hpart.text, hwhole.text, takeWhile_ne_zero_eq_self_iff]
  · rw [← takeWhile_ne_zero_eq_self_iff]
    constructor
    · intro heq
      rw [← hpart.text, heq, hwhole.text]
    · intro heq
      rw [heq]

/-- The literal `"a\0b"`, and behind it an array with its characters. -/
theorem literal_states_nul :
    let mem := Memory.ofText [ch 'a', 0, ch 'b', 0, ch 'a', 0, ch 'b', 0]
    ofArray mem 5 4 = ofSize 5 3 ∧ (ofArray mem 5 4).eq mem (ofSize 1 3) = true ∧
      ∃ st, ofCString mem 1 = some st ∧ st.text mem = [ch 'a'] ∧
        st.eq mem (ofArray mem 5 4) = false ∧ st.eq mem (ofSize 1 3) = false := by
  intro mem
  have hliteral : TerminatedAt mem 1 [ch 'a', 0, ch 'b'] := ⟨by decide, rfl, rfl⟩
  have hcopy : TerminatedAt mem 5 [ch 'a', 0, ch 'b'] := ⟨by decide, rfl, rfl⟩
  obtain ⟨-, harray, heqs, st, hst, hshows, heq, heq', -⟩ := literal_states hliteral hcopy
  refine ⟨harray, heqs, st, hst, hshows.text, ?_, ?_⟩
  · simpa using heq.not.2 (by simp)
  · simpa using heq'.not.2 (by simp)

end State

end Noam
