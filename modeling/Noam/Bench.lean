import Noam.Folding
import Noam.Matching
import Noam.Rendering

/-!
# The sums of `bench.cpp`

Four parsers add up integers between commas: `fold_left`, two coroutines that loop on `test_then` and
on `try_parse`, and a loop over `std::from_chars` that is written by hand. The last one keeps the pointer
at which it scans and the one behind the last integer apart, where the others go back to an earlier
state. On a text without whitespace other than spaces they all do the same (`addsAlike_of_spaces`).
-/

namespace Noam
open GetResult ValueType Loop Attempt

variable {mem : Memory} {st st' : State} {text : List UInt8}

/-- `long`. Sums are taken as integers; `from_chars` reads the ones of 64 bits. -/
abbrev ValueType.long : ValueType := type Int (some 0)

def fromCharsLong (text : List UInt8) : Option (Nat × ValueType.long) :=
  let (minus, ds) := scanInt text
  if ds ≠ [] ∧ -2 ^ 63 ≤ intValue minus ds ∧ intValue minus ds < 2 ^ 63 then
    some (minus.toNat + ds.length, intValue minus ds)
  else none

def longFromChars : FromChars ValueType.long where
  fromChars := fromCharsLong
  read_le {text n v} h := by
    unfold fromCharsLong at h
    simp only at h
    split at h
    · rename_i hds
      cases h
      exact scanInt_read_le hds.1
    · cases h

/-! ### The parsers -/

section
variable (mem : Memory)

/-- `parse_long` -/
def parseLong : Parser false ValueType.long := charconv mem longFromChars

/-- `comma_separator` -/
def commaSeparator : Parser false empty := separator mem [.charLiteral (ch ',')]

/-- `comma_separator >> parse_int` -/
def nextValue : Parser false ValueType.int := commaSeparator mem >>> parseInt mem

/-- `[](long sum, int value) { return sum + value; }`, and `sum += value` -/
def addInt (sum : ValueType.long) (value : ValueType.int) : ValueType.long := sum + value.1

/-- The conversion of an `int` to `long`. -/
def toLong (value : ValueType.int) : ValueType.long := value.1

def addWFold : Parser false ValueType.long := foldLeft (parseLong mem) (nextValue mem) addInt

def addWTestThen : Parser false ValueType.long :=
  (loopTestThen (parseInt mem) toLong (nextValue mem) addInt).toParser

def addWTryParse : Parser false ValueType.long :=
  (loopTryParse (parseInt mem) toLong (nextValue mem) addInt).toParser

/-- The variables of `add_w_baseline` that its loop changes. -/
structure Baseline where
  begin_ : Nat
  parseResultStart : Nat
  sum : ValueType.long

/-- `while (begin < end && *begin == ' ') begin++;` -/
def skipSpaces (begin_ end_ : Nat) : Nat := skipChars mem [ch ' '] (end_ - begin_) begin_

/-- One round of the loop of `add_w_baseline`. A `break` leaves `begin` anywhere, and it is not used
after the loop. -/
def baselineRound (end_ : Nat) (x : Baseline) : Option (Round Baseline Baseline) :=
  let begin_ := skipSpaces mem x.begin_ end_
  if begin_ ≠ end_ ∧ mem begin_ = ch ',' then
    let begin_ := skipSpaces mem (begin_ + 1) end_
    match fromCharsInt (mem.read begin_ (end_ - begin_)) with
    | some (n, value) => return .next ⟨begin_ + n, begin_ + n, addInt x.sum value⟩
    | none => return .done { x with begin_ := begin_ }
  else return .done { x with begin_ := begin_ }

def addWBaseline : Parser false ValueType.long where
  parse st :=
    match fromCharsInt (st.text mem) with
    | some (n, value) => do
      let start := st._begin + n
      let x ← loop (baselineRound mem st._end) ⟨start, start, toLong value⟩
      return .of ⟨x.parseResultStart, st._end⟩ x.sum
    | none => return failed

end

/-! ### Integers at the start of a text -/

theorem parseInt_reads : (parseInt mem).Reads mem fun text => some (fromCharsInt text) :=
  charconv_reads intFromChars

/-- What `parse_long` reads from the text is an `int`. -/
def StartsWithInt (text : List UInt8) : Prop :=
  ∀ n v, fromCharsLong text = some (n, v) → -2 ^ 31 ≤ v ∧ v < 2 ^ 31

theorem fromCharsLong_of_int {n : Nat} {v : ValueType.int} (h : fromCharsInt text = some (n, v)) :
    fromCharsLong text = some (n, toLong v) := by
  unfold fromCharsInt at h
  simp only at h
  split at h
  · rename_i hds
    obtain ⟨hne, hlo, hhi⟩ := hds
    cases h
    exact if_pos ⟨hne, Int.le_trans (by decide) hlo, Int.lt_trans hhi (by decide)⟩
  · cases h

theorem fromCharsInt_of_long {n : Nat} {v : ValueType.long} (h : fromCharsLong text = some (n, v))
    (hv : -2 ^ 31 ≤ v ∧ v < 2 ^ 31) : fromCharsInt text = some (n, ⟨v, hv⟩) := by
  unfold fromCharsLong at h
  simp only at h
  split at h
  · rename_i hds
    cases h
    exact dif_pos ⟨hds.1, hv⟩
  · cases h

/-- `parse_long` and `parse_int` read the same from it. -/
theorem StartsWithInt.fromCharsLong_eq (h : StartsWithInt text) :
    fromCharsLong text = (fromCharsInt text).map fun y => (y.1, toLong y.2) := by
  rcases hint : fromCharsInt text with _ | ⟨n, v⟩
  · rcases hlong : fromCharsLong text with _ | ⟨n, v⟩
    · rfl
    · rw [fromCharsInt_of_long hlong (h n v hlong)] at hint; cases hint
  · rw [fromCharsLong_of_int hint]; rfl

/-! ### Spaces around a comma -/

/-- The text has no whitespace but spaces. -/
def OnlySpaces (text : List UInt8) : Prop := ∀ c ∈ text, c ≠ ch '\t' ∧ c ≠ ch '\n' ∧ c ≠ ch '\r'

theorem OnlySpaces.drop (h : OnlySpaces text) (n : Nat) : OnlySpaces (text.drop n) :=
  fun c hc => h c (List.mem_of_mem_drop hc)

theorem OnlySpaces.runLength_eq (h : OnlySpaces text) :
    runLength whitespaceChars text = runLength [ch ' '] text := by
  induction text with
  | nil => rfl
  | cons c text ih =>
    obtain ⟨htab, hlf, hcr⟩ := h c List.mem_cons_self
    have ih := ih (h.drop 1)
    have hiff : c ∈ whitespaceChars ↔ c ∈ [ch ' '] := by simp [whitespaceChars, htab, hlf, hcr]
    unfold runLength at ih ⊢
    simp only [List.takeWhile_cons, hiff]
    split
    · rw [List.length_cons, List.length_cons, ih]
    · rfl

/-- `st` behind its spaces. -/
def State.afterSpaces (mem : Memory) (st : State) : State := ⟨skipSpaces mem st._begin st._end, st._end⟩

theorem afterSpaces_eq : st.afterSpaces mem = st.removePrefix (runLength [ch ' '] (st.text mem)) := by
  rw [State.afterSpaces, skipSpaces, skipChars_eq]; rfl

theorem suffix_afterSpaces (mem : Memory) (hst : st.Valid) : (st.afterSpaces mem).Suffix st := by
  rw [afterSpaces_eq]
  exact State.suffix_removePrefix (runLength_le _ _) hst

theorem OnlySpaces.suffix (h : OnlySpaces (st.text mem)) (hs : st'.Suffix st) :
    OnlySpaces (st'.text mem) := by
  rw [hs.eq_removePrefix, State.text_removePrefix]
  exact h.drop _

theorem run_whitespace_spaces (hst : st.Live) (h : OnlySpaces (st.text mem)) :
    (whitespace mem).run st = some (some (st.afterSpaces mem, ())) := by
  rw [afterSpaces_eq, ← h.runLength_eq]
  exact (zeroOrMoreChars_reads whitespaceChars).run_of_good hst.valid hst.good rfl

/-- What a round reads from `st`: a comma with spaces around it, and an integer. -/
def nextInt (mem : Memory) (st : State) : Option (State × ValueType.int) :=
  let st := st.afterSpaces mem
  if st.startsWithChar mem (ch ',') then
    let st := (st.removePrefix 1).afterSpaces mem
    (fromCharsInt (st.text mem)).map fun y => (st.removePrefix y.1, y.2)
  else none

theorem suffix_afterChar {c : UInt8} (hst : st.Valid) (hc : st.startsWithChar mem c = true) :
    (st.removePrefix 1).Suffix st := by
  have hlt := State.text_ne_nil (List.IsPrefix.ne_nil (State.startsWithChar_iff.1 hc) (by simp))
  have hle : 1 ≤ (st.text mem).length := by rw [State.length_text]; omega
  exact State.suffix_removePrefix hle hst

theorem run_commaSeparator (hst : st.Live) (h : OnlySpaces (st.text mem)) :
    (commaSeparator mem).run st = some (if (st.afterSpaces mem).startsWithChar mem (ch ',') then
      some (((st.afterSpaces mem).removePrefix 1).afterSpaces mem, ()) else none) := by
  have hs := suffix_afterSpaces mem hst.valid
  have hcomma := run_literal_char mem (ch ',') (st.afterSpaces mem)
  rw [commaSeparator, (separator_refines mem _).run_eq hst.good, bind_some (run_whitespace_spaces hst h)]
  by_cases hc : (st.afterSpaces mem).startsWithChar mem (ch ',') = true
  · -- behind the comma there are only spaces for whitespace, too
    have hs' := suffix_afterChar hs.valid hc
    rw [if_pos hc] at hcomma ⊢
    rw [bind_some hcomma]
    exact run_whitespace_spaces (hs'.live (hs.live hst)) ((h.suffix hs).suffix hs')
  · rw [if_neg hc] at hcomma ⊢
    rw [bind_fail hcomma]

theorem run_charconv {V : ValueType} (mem : Memory) (fc : FromChars V) (hst : st.Live) :
    (charconv mem fc).run st =
      some ((fc.fromChars (st.text mem)).map fun y => (st.removePrefix y.1, y.2)) := by
  rcases h : fc.fromChars (st.text mem) with _ | ⟨n, v⟩
  · exact (charconv_reads fc).run_fail ⟨hst.valid, hst.good, rfl⟩ (congrArg some h)
  · exact (charconv_reads fc).run_some ⟨hst.valid, hst.good, rfl⟩ (congrArg some h)

theorem run_nextValue (hst : st.Live) (h : OnlySpaces (st.text mem)) :
    (nextValue mem).run st = some (nextInt mem st) := by
  have hnext : (nextValue mem).run st = bind (commaSeparator mem).run (fun _ => (parseInt mem).run) st :=
    (shiftRight_refines (separator_keepsNonNull mem _).refines
      (charconv_advances intFromChars).keepsNonNull.refines).run_eq hst.good
  have hcomma := run_commaSeparator hst h
  rw [hnext, nextInt]
  by_cases hc : (st.afterSpaces mem).startsWithChar mem (ch ',') = true
  · rw [if_pos hc] at hcomma
    have hlive := (takes_separator mem _ st _ _ hst.valid hcomma).1.live hst
    rw [bind_some hcomma, if_pos hc]
    exact run_charconv mem intFromChars hlive
  · rw [if_neg hc] at hcomma
    rw [bind_fail hcomma, if_neg hc]

theorem returns_parseInt (mem : Memory) : Returns 1 (parseInt mem).run := by
  refine .of_takes (parseInt_reads.takes fun _ _ _ h => (intFromChars.read_le (Option.some.inj h)).1) ?_
  exact parseInt_reads.total (fun _ => rfl) nofun

theorem returns_nextValue (mem : Memory) : Returns 1 (nextValue mem).run := by
  have h : Returns 1 (bind (commaSeparator mem).run fun _ => (parseInt mem).run) :=
    ((returns_separator mem _).bind fun _ => returns_parseInt mem).mono (Nat.le_add_left _ _)
  rw [nextValue, show commaSeparator mem >>> parseInt mem = _ from shiftRight_eq _ _]
  exact h.ofAttempt (by simp)

/-! ### The loop written by hand -/

theorem startsWithChar_eq_true (mem : Memory) (hst : st.Valid) (c : UInt8) :
    st.startsWithChar mem c = true ↔ st._begin ≠ st._end ∧ mem st._begin = c := by
  simp only [State.startsWithChar, Bool.and_eq_true, decide_eq_true_eq, beq_iff_eq]
  have hiff : st._begin < st._end ↔ st._begin ≠ st._end :=
    ⟨Nat.ne_of_lt, fun hne => Nat.lt_of_le_of_ne hst hne⟩
  rw [hiff]; rfl

/-- A round goes on behind the integer, and the last one leaves the end of the integer before alone. -/
theorem baselineRound_eq (hst : st.Valid) (sum : ValueType.long) : ∃ begin_,
    baselineRound mem st._end ⟨st._begin, st._begin, sum⟩ = some (match nextInt mem st with
      | some (st', v) => .next ⟨st'._begin, st'._begin, addInt sum v⟩
      | none => .done ⟨begin_, st._begin, sum⟩) := by
  have hcomma := startsWithChar_eq_true mem (suffix_afterSpaces mem hst).valid (ch ',')
  by_cases hc : (st.afterSpaces mem).startsWithChar mem (ch ',') = true
  · -- `begin` is at the comma, and from there the two read the same integer
    let st₂ := ((st.afterSpaces mem).removePrefix 1).afterSpaces mem
    have hround : baselineRound mem st._end ⟨st._begin, st._begin, sum⟩ =
        match fromCharsInt (st₂.text mem) with
        | some (n, v) => some (.next ⟨st₂._begin + n, st₂._begin + n, addInt sum v⟩)
        | none => some (.done ⟨st₂._begin, st._begin, sum⟩) := if_pos (hcomma.1 hc)
    have hnext : nextInt mem st = (fromCharsInt (st₂.text mem)).map fun y => (st₂.removePrefix y.1, y.2) :=
      if_pos hc
    refine ⟨st₂._begin, ?_⟩
    rw [hround, hnext]
    rcases fromCharsInt (st₂.text mem) with _ | ⟨n, v⟩ <;> rfl
  · have hround : baselineRound mem st._end ⟨st._begin, st._begin, sum⟩ =
        some (.done ⟨(st.afterSpaces mem)._begin, st._begin, sum⟩) := if_neg (mt hcomma.2 hc)
    have hnext : nextInt mem st = none := if_neg hc
    rw [hround, hnext]
    exact ⟨_, rfl⟩

/-- The loop is the repetition of `comma_separator >> parse_int`. The induction is on the number of
characters left, and the two pointers are the same at the head of every round. -/
theorem baseline_loop (hst : st.Live) (h : OnlySpaces (st.text mem)) (sum : ValueType.long) :
    (loop (baselineRound mem st._end) ⟨st._begin, st._begin, sum⟩).map
        (fun x => some ((⟨x.parseResultStart, st._end⟩ : State), x.sum)) =
      iterate (fun a => Attempt.map (addInt a) (nextValue mem).run) sum st := by
  induction hn : st.length using Nat.strong_induction_on generalizing st sum with
  | _ n ih =>
    have hnext := run_nextValue hst h
    have hround := map_apply (addInt sum) (nextValue mem).run st
    obtain ⟨begin_, hbase⟩ := baselineRound_eq hst.valid sum
    rcases hv : nextInt mem st with _ | ⟨st', v⟩ <;> rw [hv] at hnext hbase <;> rw [hnext] at hround
    · rw [loop_done hbase, iterate_fail hround]; rfl
    · obtain ⟨hs, hlt⟩ := (returns_nextValue mem).takes st st' v hst hnext
      rw [loop_next hbase, iterate_some hround, ← hs.end_eq]
      exact ih _ (hn ▸ hs.length_lt hlt) (hs.live hst) (h.suffix hs) _ rfl

/-! ### The four parsers -/

/-- An integer, and then the rest of the sum. -/
def summed (mem : Memory) : Attempt State ValueType.long :=
  bind (parseInt mem).run fun v =>
    iterate (fun a => Attempt.map (addInt a) (nextValue mem).run) (toLong v)

theorem returns_summed (mem : Memory) : Returns 0 (summed mem) := by
  refine ((returns_parseInt mem).bind fun v => Returns.iterate (fun a => ?_) (fun a => ?_) _).mono
    (Nat.zero_le _)
  · exact ((returns_nextValue mem).map _).mono (Nat.zero_le _)
  · exact ((returns_nextValue mem).progresses Nat.one_pos).map _

/-- The sum is that of the first integer and of those that are read behind it, each with its comma. -/
theorem summed_iff {x : ValueType.long} : summed mem st = some (some (st', x)) ↔
    ∃ st₁ v vs, (parseInt mem).run st = some (some (st₁, v)) ∧ Greedy (nextValue mem).run st₁ vs st' ∧
      x = ((v :: vs).map toLong).sum := by
  -- the sum is taken from the left, starting with the first integer
  have hfold : ∀ (vs : List ValueType.int) (v : ValueType.int),
      vs.foldl addInt (toLong v) = ((v :: vs).map toLong).sum := by
    intro vs v
    rw [List.map_cons, List.sum_cons]
    generalize toLong v = sum
    induction vs generalizing sum with
    | nil => exact (Int.add_zero sum).symm
    | cons w vs ih => rw [List.foldl_cons, ih, List.map_cons, List.sum_cons, ← Int.add_assoc]; rfl
  constructor
  · intro h
    obtain ⟨st₁, v, hfirst, hrest⟩ := bind_eq_some h
    obtain ⟨vs, hvs, rfl⟩ := (iterate_eq_some_iff addInt).1 hrest
    exact ⟨st₁, v, vs, hfirst, hvs, hfold vs v⟩
  · rintro ⟨st₁, v, vs, hfirst, hvs, rfl⟩
    exact (bind_some hfirst).trans ((iterate_eq_some_iff addInt).2 ⟨vs, hvs, (hfold vs v).symm⟩)

theorem run_parseInt_none (hst : st.Live) (h : fromCharsInt (st.text mem) = none) :
    (parseInt mem).run st = some none := by
  have hrun := run_charconv mem intFromChars hst
  rw [show intFromChars.fromChars (st.text mem) = none from h] at hrun
  exact hrun

theorem run_parseInt_some (hst : st.Live) {n : Nat} {v : ValueType.int}
    (h : fromCharsInt (st.text mem) = some (n, v)) :
    (parseInt mem).run st = some (some (st.removePrefix n, v)) := by
  have hrun := run_charconv mem intFromChars hst
  rw [show intFromChars.fromChars (st.text mem) = some (n, v) from h] at hrun
  exact hrun

/-- What follows the first integer matters on live states only. -/
theorem bind_parseInt_congr (hst : st.Live) {k l : ValueType.int → Attempt State ValueType.long}
    (h : ∀ st₁ v, st₁.Live → k v st₁ = l v st₁) :
    bind (parseInt mem).run k st = bind (parseInt mem).run l st := by
  rcases hread : fromCharsInt (st.text mem) with _ | ⟨n, v⟩
  · have hrun := run_parseInt_none hst hread
    rw [bind_fail hrun, bind_fail hrun]
  · have hrun := run_parseInt_some hst hread
    rw [bind_some hrun, bind_some hrun]
    exact h _ v (((returns_parseInt mem).suffix hst hrun).live hst)

theorem run_addWTestThen (hst : st.Live) : (addWTestThen mem).run st = summed mem st := by
  rw [addWTestThen, run_loopTestThen]
  exact bind_parseInt_congr hst fun st₁ v hlive => testThen_loop (returns_nextValue mem).takes hlive

/-- An `int` is never a disengaged optional. -/
theorem run_addWTryParse (hst : st.Live) : (addWTryParse mem).run st = summed mem st := by
  rw [addWTryParse, run_loopTryParse]
  refine bind_parseInt_congr hst fun st₁ v hlive => ?_
  exact (tryParse_loop_iff (returns_nextValue mem).takes hlive).2 fun _ _ _ _ _ _ hnull => nomatch hnull

theorem run_addWFold (hst : st.Live) (hint : StartsWithInt (st.text mem)) :
    (addWFold mem).run st = summed mem st := by
  have hsame : bind (parseLong mem).run (iterate fun a => Attempt.map (addInt a) (nextValue mem).run) st =
      summed mem st := by
    have hlong := run_charconv mem longFromChars hst
    rw [show longFromChars.fromChars (st.text mem) = _ from hint.fromCharsLong_eq] at hlong
    rcases hread : fromCharsInt (st.text mem) with _ | ⟨n, v⟩ <;> rw [hread] at hlong
    · rw [summed, bind_fail (run_parseInt_none hst hread)]
      exact bind_fail hlong
    · rw [summed, bind_some (run_parseInt_some hst hread)]
      exact bind_some hlong
  have hgood : ∀ st' x, summed mem st = some (some (st', x)) → st'.good = true :=
    fun st' x h => (((returns_summed mem).suffix hst h).live hst).good
  rw [addWFold, foldLeft_eq, ← hsame]
  exact run_ofAttempt_eq (fun st' x h => hgood st' x (hsame.symm.trans h)) (by simp)

/-- What the loop leaves in the variables is the sum, and the state behind its last integer. -/
theorem run_addWBaseline (hst : st.Live) (h : OnlySpaces (st.text mem)) :
    (addWBaseline mem).run st = summed mem st := by
  rcases hread : fromCharsInt (st.text mem) with _ | ⟨n, v⟩
  · rw [summed, bind_fail (run_parseInt_none hst hread)]
    simp [Parser.run, addWBaseline, hread]
  · have hrun := run_parseInt_some hst hread
    have hs := (returns_parseInt mem).suffix hst hrun
    have hsum : summed mem st = _ := bind_some hrun
    rw [← baseline_loop (hs.live hst) (h.suffix hs) (toLong v)] at hsum
    have hrun : (addWBaseline mem).run st =
        (loop (baselineRound mem st._end) ⟨st._begin + n, st._begin + n, toLong v⟩).map fun x =>
          (of ⟨x.parseResultStart, st._end⟩ x.sum : GetResult ValueType.long false).outcome := by
      simp only [Parser.run, addWBaseline, hread]
      rcases loop (baselineRound mem st._end) ⟨st._begin + n, st._begin + n, toLong v⟩ with _ | x <;> rfl
    rw [hrun, hsum]
    refine Option.map_congr fun x hx => ?_
    have hlast := (returns_summed mem).suffix hst (hsum.trans (congrArg (Option.map _) hx))
    exact outcome_of_good (hlast.live hst).good x.sum

/-- The four parsers return, and return the same. -/
structure AddsAlike (mem : Memory) (st : State) : Prop where
  returns : ((addWBaseline mem).run st).isSome
  fold : (addWFold mem).run st = (addWBaseline mem).run st
  testThen : (addWTestThen mem).run st = (addWBaseline mem).run st
  tryParse : (addWTryParse mem).run st = (addWBaseline mem).run st

/-- A tab or the end of a line around a comma is what only the separator skips, and `parse_long` reads
more than `from_chars` for an `int` does. -/
theorem addsAlike_of_spaces (mem : Memory) (hst : st.Live) (h : OnlySpaces (st.text mem))
    (hint : StartsWithInt (st.text mem)) : AddsAlike mem st := by
  have hbase := run_addWBaseline hst h
  refine ⟨?_, ?_, ?_, ?_⟩ <;> rw [hbase]
  · exact (returns_summed mem).total st hst
  · exact run_addWFold hst hint
  · exact run_addWTestThen hst
  · exact run_addWTryParse hst

/-- `7 ,-2,`, where no integer follows the last comma: the sum is 5, and the comma is left. -/
theorem addsAlike_of_spaces_list :
    let mem := Memory.ofText [ch '7', ch ' ', ch ',', ch '-', ch '2', ch ',']
    let st := State.ofLength 6
    (addWBaseline mem).run st = some (some (⟨6, 7⟩, (5 : Int))) ∧
      (addWFold mem).run st = some (some (⟨6, 7⟩, (5 : Int))) ∧
      (addWTestThen mem).run st = some (some (⟨6, 7⟩, (5 : Int))) ∧
      (addWTryParse mem).run st = some (some (⟨6, 7⟩, (5 : Int))) := by
  intro mem st
  have hst : st.Live := State.live_ofLength 6
  have htext : st.text mem = [ch '7', ch ' ', ch ',', ch '-', ch '2', ch ','] := (State.shows_ofText _).text
  have hspaces : OnlySpaces (st.text mem) := by
    rw [htext]
    unfold OnlySpaces
    decide +kernel
  have halike : AddsAlike mem st := by
    refine addsAlike_of_spaces mem hst hspaces ?_
    rw [htext]
    intro n v h
    have hread : fromCharsLong [ch '7', ch ' ', ch ',', ch '-', ch '2', ch ','] = some (1, (7 : Int)) := rfl
    cases hread.symm.trans h
    decide
  let seven : ValueType.int := ⟨7, by decide⟩
  let minusTwo : ValueType.int := ⟨-2, by decide⟩
  have hfirst : (parseInt mem).run st = some (some (⟨2, 7⟩, seven)) :=
    run_parseInt_some hst (by rw [htext]; rfl)
  have hnext : ∀ st' : State, st'.Suffix st → (nextValue mem).run st' = some (nextInt mem st') :=
    fun st' hs => run_nextValue (hs.live hst) (hspaces.suffix hs)
  have hsecond : (nextValue mem).run ⟨2, 7⟩ = some (some (⟨6, 7⟩, minusTwo)) :=
    (hnext ⟨2, 7⟩ ⟨rfl, by decide, by decide⟩).trans rfl
  have hstop : (nextValue mem).run ⟨6, 7⟩ = some none :=
    (hnext ⟨6, 7⟩ ⟨rfl, by decide, by decide⟩).trans rfl
  have hsum : (addWBaseline mem).run st = some (some (⟨6, 7⟩, (5 : Int))) := by
    rw [run_addWBaseline hst hspaces]
    exact summed_iff.2 ⟨⟨2, 7⟩, seven, [minusTwo], hfirst, .step hsecond (.stop hstop), rfl⟩
  exact ⟨hsum, halike.fold.trans hsum, halike.testThen.trans hsum, halike.tryParse.trans hsum⟩

end Noam
