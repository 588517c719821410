import Mathlib.Algebra.Ring.Int.Defs
import Mathlib.Algebra.Ring.Nat
import Mathlib.Data.List.GetD
import Mathlib.Order.Basic

/-!
# `noam::state` (`state.hpp`)

A state is a pair of pointers into the characters that are left to be parsed. Pointers are addresses
(`Nat`), `0` is the null pointer; `size()` is signed and negative when `_begin` overshot `_end`.
`State.text` reads the characters of a state: on a valid one (`_begin ≤ _end`) every operation below
is determined by it.
-/

namespace Noam

/-- The character at each address. -/
abbrev Memory := Nat → UInt8

/-- The `n` characters from address `p` on. -/
def Memory.read (mem : Memory) (p : Nat) : Nat → List UInt8
  | 0 => []
  | n + 1 => mem p :: mem.read (p + 1) n

/-- A memory that holds a text from address 1 on. -/
def Memory.ofText (text : List UInt8) : Memory := fun p => text.getD (p - 1) 0

/-- A character constant. -/
abbrev ch (c : Char) : UInt8 := c.toUInt8

structure State where
  _begin : Nat
  _end : Nat
deriving DecidableEq, Repr

/-- The conversion of a signed `intptr_t` to `size_t`. -/
def toSizeT (n : Int) : Nat := (n % 2 ^ 64).toNat

/-- The comparison loop of `starts_with` and `operator==`: `n` characters from index `i` on. -/
def sameChars (a b : Nat → UInt8) : Nat → Nat → Bool
  | 0, _ => true
  | n + 1, i => if a i != b i then false else sameChars a b n (i + 1)

def nullState : State := ⟨0, 0⟩

/-- The state that views a text of `n` characters from address 1 on. -/
def State.ofLength (n : Nat) : State := ⟨1, 1 + n⟩

namespace State
variable (mem : Memory) (st : State)

/-- `good()` and `operator bool`: the state is not null. -/
def good : Bool := st._begin != 0

/-- `empty()`: the state has no characters, or overshot its end. -/
def empty : Bool := decide (st._end ≤ st._begin)

/-- `has()` -/
def has : Bool := decide (st._begin < st._end)

def size : Int := st._end - st._begin

def substr (start : Nat) : State := ⟨st._begin + start, st._end⟩

/-- `substr(start, count)`; `size() - start` is unsigned. -/
def substrCount (start count : Nat) : State :=
  let max := toSizeT (st.size - start)
  if max < count then ⟨st._begin + start, st._begin + start + max⟩
  else ⟨st._begin + start, st._begin + start + count⟩

/-- `operator[]` -/
def get (i : Nat) : UInt8 := mem (st._begin + i)

def removePrefix (n : Nat) : State := { st with _begin := st._begin + n }

def removeSuffix (n : Nat) : State := { st with _end := st._end - n }

/-- `starts_with` for a prefix of `len` characters, the `i`-th of which is `at i`. -/
def startsWithChars (at_ : Nat → UInt8) (len : Int) : Bool :=
  if st.size < len then false else sameChars at_ (st.get mem) len.toNat 0

/-- `starts_with(state)` -/
def startsWith (pre : State) : Bool := st.startsWithChars mem (pre.get mem) pre.size

/-- `starts_with(char const (&)[N])`, for the `N - 1` characters before the terminator. -/
def startsWithArray (pre : List UInt8) : Bool :=
  st.startsWithChars mem (fun i => pre.getD i 0) pre.length

/-- `starts_with(char)` -/
def startsWithChar (c : UInt8) : Bool := st._begin < st._end && st.get mem 0 == c

/-- `operator==` -/
def eq (other : State) : Bool :=
  if other.size != st.size then false
  else sameChars (other.get mem) (st.get mem) other.size.toNat 0

/-- The characters of a state, `operator std::string_view`. -/
def text : List UInt8 := mem.read st._begin (st._end - st._begin)

/-- `_begin ≤ _end` -/
def Valid : Prop := st._begin ≤ st._end

/-- A view into memory, where pointers are 64 bits wide. -/
structure IsView (st : State) : Prop where
  valid : st.Valid
  end_lt : st._end < 2 ^ 64

/-- `t` is what is left of `st` after some of its characters. -/
structure Suffix (t st : State) : Prop where
  end_eq : t._end = st._end
  begin_le : st._begin ≤ t._begin
  valid : t.Valid

instance : Decidable st.Valid := inferInstanceAs (Decidable (_ ≤ _))

end State

/-! ### Reading memory -/

namespace Memory
variable (mem : Memory)

@[simp] theorem length_read (p n : Nat) : (mem.read p n).length = n := by
  induction n generalizing p with
  | zero => rfl
  | succ n ih => simp [read, ih]

theorem read_add (p n m : Nat) : mem.read p (n + m) = mem.read p n ++ mem.read (p + n) m := by
  induction n generalizing p with
  | zero => simp [read]
  | succ n ih =>
    rw [Nat.succ_add, read, read, ih, List.cons_append, Nat.add_right_comm, Nat.add_assoc]

theorem drop_read (p n k : Nat) : (mem.read p n).drop k = mem.read (p + k) (n - k) := by
  rcases Nat.le_total k n with h | h
  · obtain ⟨m, rfl⟩ := Nat.exists_eq_add_of_le h
    rw [read_add, Nat.add_sub_cancel_left, List.drop_left' (by simp)]
  · rw [Nat.sub_eq_zero_of_le h, read, List.drop_eq_nil_of_le (by simpa using h)]

theorem take_read (p n k : Nat) : (mem.read p n).take k = mem.read p (min k n) := by
  rcases Nat.le_total k n with h | h
  · obtain ⟨m, rfl⟩ := Nat.exists_eq_add_of_le h
    rw [read_add, Nat.min_eq_left h, List.take_left' (by simp)]
  · rw [Nat.min_eq_right h, List.take_of_length_le (by simpa using h)]

theorem getElem?_read {p n i : Nat} (h : i < n) : (mem.read p n)[i]? = some (mem (p + i)) := by
  induction n generalizing p i with
  | zero => omega
  | succ n ih =>
    cases i with
    | zero => rfl
    | succ i =>
      rw [read, List.getElem?_cons_succ, ih (by omega), Nat.add_assoc, Nat.add_comm 1 i]

end Memory

theorem sameChars_iff {a b : Nat → UInt8} {n i : Nat} :
    sameChars a b n i = true ↔ ∀ k < n, a (i + k) = b (i + k) := by
  induction n generalizing i with
  | zero => simp [sameChars]
  | succ n ih =>
    rw [sameChars]
    split
    · rename_i h
      simp only [bne_iff_ne, ne_eq] at h
      exact ⟨fun h' => (by cases h'), fun h' => absurd (h' 0 (by omega)) h⟩
    · rename_i h
      simp only [bne_iff_ne, ne_eq, not_not] at h
      rw [ih]
      constructor
      · intro h' k hk
        cases k with
        | zero => exact h
        | succ k => simpa [Nat.add_assoc, Nat.add_comm 1 k] using h' k (by omega)
      · intro h' k hk
        simpa [Nat.add_assoc, Nat.add_comm 1 k] using h' (k + 1) (by omega)

namespace State
variable {mem : Memory} {st s t : State}

@[simp] theorem removePrefix_begin (n : Nat) : (st.removePrefix n)._begin = st._begin + n := rfl
@[simp] theorem removePrefix_end (n : Nat) : (st.removePrefix n)._end = st._end := rfl

@[simp] theorem removeSuffix_begin (n : Nat) : (st.removeSuffix n)._begin = st._begin := rfl
@[simp] theorem removeSuffix_end (n : Nat) : (st.removeSuffix n)._end = st._end - n := rfl

@[simp] theorem removePrefix_zero : st.removePrefix 0 = st := rfl

theorem removePrefix_removePrefix (n m : Nat) :
    (st.removePrefix n).removePrefix m = st.removePrefix (n + m) := by
  simp [removePrefix, Nat.add_assoc]

theorem good_iff : st.good = true ↔ 0 < st._begin := by
  simp [good, Nat.pos_iff_ne_zero]

theorem good_of_le (h : s.good = true) (hle : s._begin ≤ t._begin) : t.good = true := by
  rw [good_iff] at *; omega

theorem good_removePrefix (h : st.good = true) (n : Nat) : (st.removePrefix n).good = true :=
  good_of_le h (Nat.le_add_right _ _)

/-- Both null or both not, as many characters on. -/
theorem good_removePrefix_eq (h : s.good = t.good) (n : Nat) :
    (s.removePrefix n).good = (t.removePrefix n).good := by
  by_cases hs : s.good = true
  · rw [good_removePrefix hs, good_removePrefix (h ▸ hs)]
  · have hs : s._begin = 0 := by simpa [good] using hs
    have ht : t._begin = 0 := by simpa [good, hs] using h.symm
    simp [good, hs, ht]

@[simp] theorem length_text : (st.text mem).length = st._end - st._begin := by simp [text]

theorem text_removePrefix (n : Nat) : (st.removePrefix n).text mem = (st.text mem).drop n := by
  rw [text, text, Memory.drop_read]; simp [Nat.sub_sub]

theorem text_ne_nil (h : st.text mem ≠ []) : st._begin < st._end := by
  have := List.length_pos_iff.2 h
  rw [length_text] at this; omega

@[simp] theorem has_eq_true : st.has = true ↔ st._begin < st._end := by simp [has]

@[simp] theorem empty_eq_true : st.empty = true ↔ st._end ≤ st._begin := by simp [empty]

theorem text_eq_nil : st.text mem = [] ↔ st._end ≤ st._begin := by
  rw [← List.length_eq_zero_iff, length_text]; omega

theorem size_eq (mem : Memory) (h : st.Valid) : st.size = (st.text mem).length := by
  simp only [Valid] at h; simp only [size, length_text]; omega

theorem get_eq {i : Nat} (h : i < (st.text mem).length) : (st.text mem)[i]? = some (st.get mem i) := by
  rw [length_text] at h
  exact mem.getElem?_read h

theorem startsWithChars_iff (h : st.Valid) (pre : List UInt8) :
    st.startsWithChars mem (fun i => pre.getD i 0) pre.length = true ↔ pre <+: st.text mem := by
  rw [startsWithChars, size_eq mem h]
  split
  · rename_i hlt
    exact ⟨fun h' => (by cases h'), fun h' => absurd h'.length_le (by omega)⟩
  · rename_i hle
    rw [Int.toNat_natCast, sameChars_iff, List.prefix_iff_getElem?]
    refine forall₂_congr fun k hk => ?_
    rw [get_eq (by omega), Nat.zero_add, List.getD_eq_getElem _ _ hk, Option.some.injEq, eq_comm]

theorem startsWithChar_iff {c : UInt8} : st.startsWithChar mem c = true ↔ [c] <+: st.text mem := by
  simp only [startsWithChar, Bool.and_eq_true, decide_eq_true_eq, beq_iff_eq]
  constructor
  · rintro ⟨hlt, rfl⟩
    obtain ⟨n, hn⟩ := Nat.exists_eq_add_of_lt hlt
    have hn' : st._end - st._begin = n + 1 := by omega
    exact ⟨mem.read (st._begin + 1) n, by rw [text, hn']; rfl⟩
  · rintro ⟨l, hl⟩
    have hne : st.text mem ≠ [] := by rw [← hl]; simp
    have hlt := text_ne_nil hne
    refine ⟨hlt, ?_⟩
    have := get_eq (List.length_pos_iff.2 hne)
    rw [← hl] at this
    simpa using this.symm

theorem startsWith_iff {pre : State} (h : st.Valid) (hp : pre.Valid) :
    st.startsWith mem pre = true ↔ pre.text mem <+: st.text mem := by
  rw [← startsWithChars_iff h, startsWith, startsWithChars, startsWithChars, size_eq mem hp,
    Int.toNat_natCast]
  split
  · rfl
  · rw [sameChars_iff, sameChars_iff]
    refine forall₂_congr fun k hk => ?_
    rw [Nat.zero_add, List.getD_eq_getElem?_getD, get_eq hk]; rfl

theorem startsWithChars_eq (h : st.Valid) (pre : List UInt8) :
    st.startsWithChars mem (fun i => pre.getD i 0) pre.length = pre.isPrefixOf (st.text mem) := by
  rw [Bool.eq_iff_iff, startsWithChars_iff h, List.isPrefixOf_iff_prefix]

theorem startsWithChar_eq (c : UInt8) :
    st.startsWithChar mem c = [c].isPrefixOf (st.text mem) := by
  rw [Bool.eq_iff_iff, startsWithChar_iff, List.isPrefixOf_iff_prefix]

theorem startsWith_eq {pre : State} (h : st.Valid) (hp : pre.Valid) :
    st.startsWith mem pre = (pre.text mem).isPrefixOf (st.text mem) := by
  rw [Bool.eq_iff_iff, startsWith_iff h hp, List.isPrefixOf_iff_prefix]

/-- On valid states `operator==` compares the texts. -/
theorem eq_iff (hs : s.Valid) (ht : t.Valid) : s.eq mem t = true ↔ s.text mem = t.text mem := by
  have hl : (s.text mem = t.text mem) ↔
      (s.text mem).length = (t.text mem).length ∧ t.text mem <+: s.text mem := by
    constructor
    · intro h; rw [h]; exact ⟨rfl, List.prefix_rfl⟩
    · rintro ⟨h, h'⟩; exact (h'.eq_of_length h.symm).symm
  rw [hl, ← startsWith_iff hs ht, State.eq, startsWith, startsWithChars, size_eq mem hs,
    size_eq mem ht]
  by_cases h : (t.text mem).length = (s.text mem).length
  · rw [h]; simp
  · have h' : ((t.text mem).length : Int) ≠ (s.text mem).length := by omega
    rw [if_pos (by simpa using h')]
    exact ⟨fun h => (by cases h), fun h' => absurd h'.1.symm h⟩

theorem Suffix.refl (h : st.Valid) : st.Suffix st := ⟨rfl, Nat.le_refl _, h⟩

theorem Suffix.trans {u : State} (h : t.Suffix s) (h' : u.Suffix t) : u.Suffix s :=
  ⟨h'.end_eq.trans h.end_eq, Nat.le_trans h.begin_le h'.begin_le, h'.valid⟩

theorem Suffix.eq_removePrefix (h : t.Suffix s) : t = s.removePrefix (t._begin - s._begin) := by
  obtain ⟨begin_, end_⟩ := t
  obtain ⟨rfl, hle, -⟩ := h
  simp only [removePrefix, Nat.add_sub_cancel' hle]

theorem suffix_removePrefix {n : Nat} (hn : n ≤ (st.text mem).length) (h : st.Valid) :
    (st.removePrefix n).Suffix st := by
  rw [length_text] at hn
  simp only [Valid] at h
  exact ⟨rfl, by simp, by simp only [Valid, removePrefix_begin, removePrefix_end]; omega⟩

end State

end Noam
