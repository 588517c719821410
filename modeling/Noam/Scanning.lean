import Noam.Texts

/-!
# The two scans of a run of characters (`util/intrinsic_types.hpp`)

`match_chs` compares its pointer with `_end`, `count_ch` counts indices up to the size of the state. On
a state with `_begin ≤ _end` both stop after the longest run of characters of the set. A negative size
is a very large one for `count_ch`: it then reads from `_end` on and beyond.
-/

namespace Noam
open GetResult ValueType

variable (mem : Memory)

/-- The addresses that the loop of `zero_or_more_chars` reads. -/
def skipReads (chars : List UInt8) : Nat → Nat → List Nat
  | 0, _ => []
  | n + 1, p => p :: if mem p ∈ chars then skipReads chars n (p + 1) else []

/-- The addresses that the loop of `count_chars` reads. -/
def countReads (chars : List UInt8) (st : State) : Nat → Nat → List Nat
  | 0, _ => []
  | n + 1, i => (st._begin + i) :: if st.get mem i ∈ chars then countReads chars st n (i + 1) else []

/-- `match_chs` and `count_ch` both skip `count` characters of `st`, the longest run of characters of
the set, and leave `rest`. -/
structure ScansAlike (chars : List UInt8) (st rest : State) (count : Nat) : Prop where
  matchChs : (zeroOrMoreChars mem chars).parse st = some (PureResult.mk rest ())
  countCh : (countChars mem chars).parse st = some (PureResult.mk rest count)
  skipped : rest = st.removePrefix count
  inSet : ∀ i < count, st.get mem i ∈ chars
  maximal : rest.empty = true ∨ rest.get mem 0 ∉ chars
  skip_lt : ∀ a ∈ skipReads mem chars (st._end - st._begin) st._begin, a < st._end
  count_lt : ∀ a ∈ countReads mem chars st (toSizeT st.size) 0, a < st._end

variable {mem} {chars : List UInt8} {st : State} {n p i a : Nat}

/-! ### What the loops read -/

theorem lt_of_mem_skipReads (h : a ∈ skipReads mem chars n p) : a < p + n := by
  induction n generalizing p with
  | zero => simp [skipReads] at h
  | succ n ih =>
    simp only [skipReads, List.mem_cons] at h
    rcases h with rfl | h
    · omega
    · split at h
      · have := ih h; omega
      · simp at h

theorem lt_of_mem_countReads (h : a ∈ countReads mem chars st n i) : a < st._begin + i + n := by
  induction n generalizing i with
  | zero => simp [countReads] at h
  | succ n ih =>
    simp only [countReads, List.mem_cons] at h
    rcases h with rfl | h
    · omega
    · split at h
      · have := ih h; omega
      · simp at h

/-! ### The run -/

theorem mem_of_lt_runLength (h : i < runLength chars (mem.read p n)) : mem (p + i) ∈ chars := by
  induction n generalizing p i with
  | zero => simp [Memory.read, runLength] at h
  | succ n ih =>
    simp only [Memory.read, runLength, List.takeWhile_cons] at h
    split at h
    · rename_i hp
      cases i with
      | zero => simpa using hp
      | succ i =>
        have := ih (p := p + 1) (i := i) (by simpa [runLength] using h)
        rwa [Nat.add_assoc, Nat.add_comm 1 i] at this
    · simp at h

/-- The character after the run, if there is one, is not in the set. -/
theorem not_mem_of_runLength_lt (h : runLength chars (mem.read p n) < n) :
    mem (p + runLength chars (mem.read p n)) ∉ chars := by
  induction n generalizing p with
  | zero => omega
  | succ n ih =>
    simp only [Memory.read, runLength, List.takeWhile_cons] at h ⊢
    split
    · rename_i hp
      simp only [hp, if_true, List.length_cons, Nat.add_lt_add_iff_right] at h
      have := ih (p := p + 1) h
      rwa [Nat.add_assoc, Nat.add_comm 1] at this
    · rename_i hp
      simpa using hp

theorem toSizeT_size_of_lt (hst : st.Valid) (hend : st._end < 2 ^ 64) :
    toSizeT st.size = st._end - st._begin := by
  rw [toSizeT_size (fun _ => 0) hst, State.length_text, Nat.mod_eq_of_lt (by omega)]

theorem toSizeT_size_pos (hst : ¬ st.Valid) (hbegin : st._begin < 2 ^ 64) : 0 < toSizeT st.size := by
  simp only [State.Valid] at hst
  simp only [toSizeT, State.size]
  omega

/-- On a valid state both scans stop after the run. -/
theorem scansAlike_of_valid (hst : st.Valid) (hend : st._end < 2 ^ 64) :
    ScansAlike mem chars st (st.removePrefix (runLength chars (st.text mem)))
      (runLength chars (st.text mem)) := by
  have hsize := toSizeT_size_of_lt hst hend
  have hle : st._begin ≤ st._end := hst
  refine ⟨?_, ?_, rfl, fun i hi => mem_of_lt_runLength hi, ?_, fun a ha => ?_, fun a ha => ?_⟩
  · simp only [zeroOrMoreChars, skipChars_eq]; rfl
  · simp only [countChars, hsize, countLoop_eq, Nat.zero_add]; rfl
  · rcases Nat.lt_or_ge (runLength chars (st.text mem)) (st._end - st._begin) with h | h
    · exact .inr (not_mem_of_runLength_lt h)
    · refine .inl ?_
      rw [State.empty_eq_true, State.removePrefix_begin, State.removePrefix_end]; omega
  · have := lt_of_mem_skipReads ha; omega
  · rw [hsize] at ha
    have := lt_of_mem_countReads ha; omega

/-- `count_ch` reads the character at `_begin` of a state that overshot its end. -/
theorem not_count_lt (hst : ¬ st.Valid) (hbegin : st._begin < 2 ^ 64) :
    ¬ ∀ a ∈ countReads mem chars st (toSizeT st.size) 0, a < st._end := by
  intro h
  obtain ⟨n, hn⟩ := Nat.exists_eq_succ_of_ne_zero (Nat.pos_iff_ne_zero.1 (toSizeT_size_pos hst hbegin))
  have := h (st._begin + 0) (by rw [hn]; exact List.mem_cons_self ..)
  exact hst (Nat.le_of_lt this)

/-- `match_chs` and `count_ch` scan the same run of characters exactly of the states whose size is not
negative. -/
theorem scansAlike_iff (mem : Memory) (chars : List UInt8) (st : State) (hbegin : st._begin < 2 ^ 64)
    (hend : st._end < 2 ^ 64) :
    (∃ rest count, ScansAlike mem chars st rest count) ↔ 0 ≤ st.size := by
  have hvalid : 0 ≤ st.size ↔ st.Valid := by simp only [State.size, State.Valid]; omega
  rw [hvalid]
  constructor
  · rintro ⟨rest, count, h⟩
    by_contra hst
    exact not_count_lt hst hbegin h.count_lt
  · intro hst
    exact ⟨_, _, scansAlike_of_valid hst hend⟩

/-- Two spaces and a letter. -/
theorem scansAlike_spaces :
    let mem := Memory.ofText [ch ' ', ch ' ', ch 'a']
    ∃ rest count, ScansAlike mem [ch ' '] (State.ofLength 3) rest count :=
  (scansAlike_iff _ _ _ (by decide) (by decide)).2 (by decide)

/-- A state that overshot the end of its single space by one: `match_chs` leaves it as it is, and
`count_ch` reads on behind the end. -/
theorem not_scansAlike_overshot :
    let st := (State.ofLength 1).substr 2
    ¬ ∃ rest count, ScansAlike (Memory.ofText [ch ' ']) [ch ' '] st rest count := by
  rintro st ⟨rest, count, h⟩
  exact not_count_lt (by decide) (by decide) h.count_lt

end Noam
