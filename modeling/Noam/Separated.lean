import Noam.Repetition
import Noam.Sequencing

/-!
# `make` with a separator

`make<T, sep>` puts a separator before each of its parsers but the first. Of copies of one parser it takes
the first elements of the list that `sequence<sep>` finds, and it fails where there are not enough of them.
-/

namespace Noam
open GetResult ValueType Attempt

variable {V W T : ValueType} {g g' : Bool} {gs : List Bool} {Vs : List ValueType} {mem : Memory}
variable {sep : AnyLiteral} {p : Parser g V} {st st' : State} {vs : List V}

/-- `parsers::join {separator<sep>, rest}...` -/
def Parsers.separated (mem : Memory) (sep : AnyLiteral) : {gs : List Bool} → {Vs : List ValueType} →
    Parsers gs Vs → Parsers (gs.map fun _ => false) Vs
  | _, _, .nil => .nil
  | _, _, .cons p ps => .cons (join (.cons (Noam.separator mem [sep]) .nil) p) (separated mem sep ps)

/-- `make<T, sep>(first, rest...)` -/
def makeSep (mem : Memory) (sep : AnyLiteral) (construct : ValuesOf (V :: Vs) → T) (first : Parser g V)
    (rest : Parsers gs Vs) : Parser (makeGood (g :: gs.map fun _ => false)) T :=
  make construct (.cons first (rest.separated mem sep))

/-- The entries of `parse_map` are made of a key and a value. -/
theorem makeSep_pair (mem : Memory) (sep : AnyLiteral) (first : Parser g V) (second : Parser g' W) :
    makePair mem sep first second =
      makeSep mem sep (fun vs : ValuesOf [V, W] => (vs.1, vs.2.1)) first (.cons second .nil) := rfl

/-! ### Copies of one parser -/

def Parsers.copies (p : Parser g V) : (n : Nat) → Parsers (List.replicate n g) (List.replicate n V)
  | 0 => .nil
  | n + 1 => .cons p (copies p n)

/-- The values of so many copies. -/
def valuesList : (n : Nat) → ValuesOf (List.replicate n V) → List V
  | 0, _ => []
  | n + 1, (v, vs) => v :: valuesList n vs

/-- A copy behind a separator. -/
theorem join_separator_refines (h : p.KeepsNonNull) :
    (join (.cons (separator mem [sep]) .nil) p).Refines
      (bind (separator mem [sep]).run fun _ => p.run) := by
  have hsep : (Parsers.cons (separator mem [sep]) .nil).KeepNonNull :=
    ⟨separator_keepsNonNull mem [sep], trivial⟩
  have hjoin := join_refines hsep h.refines
  rwa [Parsers.skipAll_singleton, bind_map] at hjoin

theorem keepNonNull_separated (h : p.KeepsNonNull) :
    (n : Nat) → ((Parsers.copies p n).separated mem sep).KeepNonNull
  | 0 => trivial
  | n + 1 => ⟨(join_separator_refines h).keepsNonNull, keepNonNull_separated h n⟩

/-- Copies behind separators are rounds of `sequence<sep>` that have to succeed. -/
theorem rel_separated (mem : Memory) (sep : AnyLiteral) (h : p.KeepsNonNull) (n : Nat) :
    Attempt.Rel NonNullRel NonNullRel Eq (Attempt.map (valuesList n) ((Parsers.copies p n).separated mem sep).runAll)
    (times (bind (separator mem [sep]).run fun _ => p.run) n) := by
  induction n with
  | zero => exact rel_pure rfl
  | succ n ih =>
    have hcons : Attempt.map (valuesList (n + 1)) ((Parsers.copies p (n + 1)).separated mem sep).runAll =
        bind (join (.cons (separator mem [sep]) .nil) p).run fun v => Attempt.map (v :: ·)
          (Attempt.map (valuesList n) ((Parsers.copies p n).separated mem sep).runAll) := by
      refine (map_bind _ _ _).trans (congrArg _ (funext fun v => ?_))
      rw [map_map, map_map]
      rfl
    rw [hcons]
    refine rel_bind (join_separator_refines h) fun v v' hv => rel_map ih fun l l' hl => ?_
    rw [hv, hl]

/-! ### `make` and `sequence` -/

section
variable (mem sep) (n : Nat) (construct : ValuesOf (V :: List.replicate n V) → T)

theorem makeSep_refines (h : p.KeepsNonNull) :
    (makeSep mem sep construct p (.copies p n)).Refines
      (bind p.run fun v => Attempt.map (fun vs => construct (v, vs))
        ((Parsers.copies p n).separated mem sep).runAll) := by
  have hall : (Parsers.cons p ((Parsers.copies p n).separated mem sep)).KeepNonNull :=
    ⟨h, keepNonNull_separated h n⟩
  have hmake := make_refines construct hall
  have hrun : Attempt.map construct (Parsers.cons p ((Parsers.copies p n).separated mem sep)).runAll =
      bind p.run fun v => Attempt.map (fun vs => construct (v, vs))
        ((Parsers.copies p n).separated mem sep).runAll :=
    (map_bind _ _ _).trans (congrArg _ (funext fun v => map_map _ _ _))
  rwa [hrun] at hmake

/-- `make<T, sep>` of `n + 1` copies takes the first `n + 1` elements of the list that `sequence<sep>`
finds, so that the others still stand behind it, and fails when there are fewer. -/
theorem makeSep_of_sequence (h : p.KeepsNonNull) (hst : st.good = true)
    (hseq : (sequenceSep mem sep p).run st = some (some (st', vs))) :
    (n < vs.length → ∃ t ws, (makeSep mem sep construct p (.copies p n)).run st =
        some (some (t, construct ws)) ∧ valuesList (n + 1) ws = vs.take (n + 1) ∧
      Greedy (bind (separator mem [sep]).run fun _ => p.run) t (vs.drop (n + 1)) st') ∧
    (vs.length ≤ n → (makeSep mem sep construct p (.copies p n)).run st = some none) := by
  rw [(sequenceSep_refines mem sep h.refines).run_eq hst, sepBy_pushBack_iff] at hseq
  rw [(makeSep_refines mem sep n construct h).run_eq hst]
  cases hseq with
  | nil hp => exact ⟨fun hn => (by cases hn), fun _ => bind_fail hp⟩
  | cons hp hgreedy =>
    have hst₁ := h _ _ _ hst hp
    have htimes := (rel_eq_iff.1 (rel_separated mem sep h n)).1 _ hst₁
    rw [map_apply] at htimes
    rw [bind_some hp, map_apply]
    refine ⟨fun hn => ?_, fun hn => ?_⟩
    · -- the first `n` rounds of the list are the copies behind the first one
      obtain ⟨t, ht, hrest⟩ := hgreedy.times (Nat.le_of_lt_succ hn)
      rw [ht] at htimes
      obtain ⟨_ | ⟨t', ws⟩, hws, heq⟩ := Option.map_eq_some_iff.1 htimes
      · cases heq
      · obtain ⟨rfl, hvalues⟩ := Prod.mk.inj (Option.some.inj heq)
        rw [hws]
        exact ⟨t', (_, ws), rfl, congrArg _ hvalues, hrest⟩
    · -- a round too few: the one after the last of the list fails
      rw [hgreedy.times_fails hn] at htimes
      obtain ⟨_ | ⟨t', ws⟩, hws, heq⟩ := Option.map_eq_some_iff.1 htimes
      · rw [hws]
        rfl
      · cases heq

/-- Two booleans of `true,true,`. -/
theorem makeSep_of_sequence_bool :
    let mem := Memory.ofText [ch 't', ch 'r', ch 'u', ch 'e', ch ',', ch 't', ch 'r', ch 'u', ch 'e', ch ',']
    let construct : ValuesOf [bool, bool] → pair bool bool := fun vs => (vs.1, vs.2.1)
    ∃ t ws, (makeSep mem (.charLiteral (ch ',')) construct (boolParser mem) (.copies (boolParser mem) 1)).run
      (State.ofLength 10) = some (some (t, construct ws)) ∧ valuesList (V := bool) 2 ws = [true, true] := by
  intro mem construct
  have helem : (boolParser mem).KeepsNonNull := boolParser_advances.keepsNonNull
  have hround : ((separator mem [.charLiteral (ch ',')]).run.bind fun _ => (boolParser mem).run) ⟨5, 11⟩ =
    some (some (⟨10, 11⟩, true)) := by decide +kernel
  have hstop : ((separator mem [.charLiteral (ch ',')]).run.bind fun _ => (boolParser mem).run) ⟨10, 11⟩ =
    some none := by decide +kernel
  have hseq : (sequenceSep mem (.charLiteral (ch ',')) (boolParser mem)).run (State.ofLength 10) =
      some (some (⟨10, 11⟩, [true, true])) := by
    rw [(sequenceSep_refines mem _ helem.refines).run_eq rfl, sepBy_pushBack_iff]
    exact .cons rfl (.step hround (.stop hstop))
  obtain ⟨t, ws, hrun, hws, -⟩ :=
    (makeSep_of_sequence mem (.charLiteral (ch ',')) 1 construct helem rfl hseq).1 (by decide)
  exact ⟨t, ws, hrun, hws⟩

end

end Noam
