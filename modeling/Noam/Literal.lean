import Noam.State

/-!
# Literals (`util/literal.hpp`)
-/

namespace Noam

/-- `any_literal` over its three bases: `any_literal {}` is the empty literal, a character is a
`char_literal` and a string that is not empty a `string_literal`. -/
inductive AnyLiteral where
  | emptyLiteral
  | charLiteral (ch : UInt8)
  | stringLiteral (str : List UInt8)
deriving DecidableEq, Repr

namespace AnyLiteral

def size : AnyLiteral → Nat
  | emptyLiteral => 0
  | charLiteral _ => 1
  | stringLiteral str => str.length

/-- The characters of the literal. -/
def text : AnyLiteral → List UInt8
  | emptyLiteral => []
  | charLiteral ch => [ch]
  | stringLiteral str => str

/-- `check_and_update(st)`: whether `st` starts with the literal, and `st` after it. -/
def checkAndUpdate (mem : Memory) : AnyLiteral → State → Bool × State
  | emptyLiteral, st => (true, st)
  | charLiteral ch, st =>
    if st.startsWithChar mem ch then (true, st.removePrefix 1) else (false, st)
  | stringLiteral str, st =>
    if st.startsWithChars mem (fun i => str.getD i 0) str.length then
      (true, st.removePrefix str.length)
    else (false, st)

/-- `(Literals.check_and_update(st) || ...)` -/
def checkAndUpdateAny (mem : Memory) : List AnyLiteral → State → Bool × State
  | [], st => (false, st)
  | lit :: lits, st =>
    match lit.checkAndUpdate mem st with
    | (true, st) => (true, st)
    | (false, st) => checkAndUpdateAny mem lits st

/-- The first literal of the list that `text` starts with. -/
def firstPrefix (lits : List AnyLiteral) (text : List UInt8) : Option AnyLiteral :=
  lits.find? fun lit => lit.text.isPrefixOf text

variable {mem : Memory} {st : State}

@[simp] theorem length_text (lit : AnyLiteral) : lit.text.length = lit.size := by
  cases lit <;> rfl

theorem checkAndUpdate_eq (lit : AnyLiteral) (h : st.Valid) :
    lit.checkAndUpdate mem st =
      if lit.text.isPrefixOf (st.text mem) then (true, st.removePrefix lit.size) else (false, st) := by
  cases lit with
  | emptyLiteral => simp [checkAndUpdate, text, size]
  | charLiteral c => rw [checkAndUpdate, State.startsWithChar_eq]; rfl
  | stringLiteral str => rw [checkAndUpdate, State.startsWithChars_eq h]; rfl

theorem checkAndUpdateAny_eq (lits : List AnyLiteral) (h : st.Valid) :
    checkAndUpdateAny mem lits st =
      match firstPrefix lits (st.text mem) with
      | some lit => (true, st.removePrefix lit.size)
      | none => (false, st) := by
  induction lits with
  | nil => rfl
  | cons lit lits ih =>
    rw [checkAndUpdateAny, checkAndUpdate_eq lit h, firstPrefix, List.find?_cons]
    cases lit.text.isPrefixOf (st.text mem)
    · exact ih
    · rfl

theorem prefix_of_firstPrefix {lits : List AnyLiteral} {text : List UInt8} {lit : AnyLiteral}
    (h : firstPrefix lits text = some lit) : lit.text <+: text := by
  simpa using List.find?_some h

/-- A literal never moves `_begin` back. -/
theorem begin_le_checkAndUpdate (mem : Memory) (lit : AnyLiteral) (st : State) :
    st._begin ≤ (lit.checkAndUpdate mem st).2._begin := by
  cases lit <;> simp only [checkAndUpdate]
  · exact Nat.le_refl _
  · split <;> simp
  · split <;> simp

theorem begin_le_checkAndUpdateAny (mem : Memory) (lits : List AnyLiteral) (st : State) :
    st._begin ≤ (checkAndUpdateAny mem lits st).2._begin := by
  induction lits generalizing st with
  | nil => exact Nat.le_refl _
  | cons lit lits ih =>
    have h := begin_le_checkAndUpdate mem lit st
    rw [checkAndUpdateAny]
    rcases hc : lit.checkAndUpdate mem st with ⟨_ | _, st'⟩ <;> rw [hc] at h
    · exact Nat.le_trans h (ih st')
    · exact h

end AnyLiteral

end Noam
