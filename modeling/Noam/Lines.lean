import Noam.Progress

/-!
# Lines (`parse_line`)

`parse_line` cuts its input after the first LF, or takes all of it. Nothing is lost: line, terminator
and remainder make up the input (`Splits`), for one call and for the calls that split a whole text. A
CR is taken off the line only before an LF, and only one of them.
-/

namespace Noam
open GetResult ValueType Attempt Loop

variable {mem : Memory} {st : State} {text line term rest a r : List UInt8}

/-! ### One line -/

/-- What `parse_line` makes of a text: the line, its terminator and the remainder. -/
structure Splits (text line term rest : List UInt8) : Prop where
  text_eq : text = line ++ term ++ rest
  no_lf : ch '\n' ∉ line
  ended : ch '\n' ∈ text →
    term = [ch '\n'] ∧ line.getLast? ≠ some (ch '\r') ∨ term = [ch '\r', ch '\n']
  last : ch '\n' ∉ text → term = [] ∧ rest = []

/-- A text without the CR that it ends in. -/
def dropCR (text : List UInt8) : List UInt8 :=
  if text.getLast? = some (ch '\r') then text.dropLast else text

/-- The line at the start of a text. -/
def lineOf (text : List UInt8) : List UInt8 :=
  if ch '\n' ∈ text then dropCR (text.takeWhile (· ≠ ch '\n')) else text

theorem lineOf_append (h : ch '\n' ∉ a) : lineOf (a ++ ch '\n' :: r) = dropCR a := by
  have htake : (a ++ ch '\n' :: r).takeWhile (· ≠ ch '\n') = a := by
    rw [List.takeWhile_append_of_pos (fun c hc => by simpa using ne_of_mem_of_not_mem hc h)]
    simp
  rw [lineOf, if_pos (by simp), htake]

theorem lineOf_of_not_mem (h : ch '\n' ∉ text) : lineOf text = text := by rw [lineOf, if_neg h]

theorem lineText_of_not_mem (hlen : text.length < 2 ^ 64) (h : ch '\n' ∉ text) :
    lineText text = some (some (text.length, text)) := by
  have hnone : text.findIdx? (· = ch '\n') = none := by
    rw [List.findIdx?_eq_none_iff]
    intro c hc
    simp only [decide_eq_false_iff_not]
    rintro rfl
    exact h hc
  simp only [lineText, Nat.mod_eq_of_lt hlen, List.take_length, hnone]

theorem findIdx?_append_cons (h : ch '\n' ∉ a) :
    (a ++ ch '\n' :: r).findIdx? (· = ch '\n') = some a.length := by
  induction a with
  | nil => rfl
  | cons c a ih =>
    simp only [List.mem_cons, not_or] at h
    rw [List.cons_append, List.findIdx?_cons, ih h.2]
    simp [Ne.symm h.1]

/-- The CR before an LF is looked for at the index before it. -/
theorem getElem?_sub_one (a r : List UInt8) :
    (0 < a.length ∧ (a ++ ch '\n' :: r)[a.length - 1]? = some (ch '\r')) ↔
      a.getLast? = some (ch '\r') := by
  rcases List.eq_nil_or_concat a with rfl | ⟨b, c, rfl⟩
  · simp
  · simp

theorem lineText_append (hlen : (a ++ ch '\n' :: r).length < 2 ^ 64) (h : ch '\n' ∉ a) :
    lineText (a ++ ch '\n' :: r) = some (some (a.length + 1, dropCR a)) := by
  simp only [lineText, Nat.mod_eq_of_lt hlen, List.take_length, findIdx?_append_cons h,
    getElem?_sub_one, dropCR]
  split
  · rw [List.take_append_of_le_length (by omega), List.dropLast_eq_take]
  · rw [List.take_left]

theorem splits_of_not_mem (h : ch '\n' ∉ text) : Splits text text [] [] :=
  ⟨by simp, h, fun h' => absurd h' h, fun _ => ⟨rfl, rfl⟩⟩

theorem splits_append (h : ch '\n' ∉ a) :
    ∃ term, Splits (a ++ ch '\n' :: r) (dropCR a) term r ∧ (dropCR a).length + term.length = a.length + 1 := by
  have hmem : ch '\n' ∈ a ++ ch '\n' :: r := by simp
  by_cases hcr : a.getLast? = some (ch '\r')
  · obtain ⟨b, rfl⟩ := List.getLast?_eq_some_iff.1 hcr
    have hb : ch '\n' ∉ b := fun hb => h (List.mem_append_left _ hb)
    have hdrop : dropCR (b ++ [ch '\r']) = b := by rw [dropCR, if_pos hcr, List.dropLast_concat]
    rw [hdrop]
    exact ⟨[ch '\r', ch '\n'], ⟨by simp, hb, fun _ => .inr rfl, fun h' => absurd hmem h'⟩, by simp⟩
  · have hdrop : dropCR a = a := by rw [dropCR, if_neg hcr]
    rw [hdrop]
    exact ⟨[ch '\n'], ⟨by simp, h, fun _ => .inl ⟨rfl, hcr⟩, fun h' => absurd hmem h'⟩, by simp⟩

/-- `parse_line` never fails; it leaves the rest of the text behind the line and its terminator. -/
theorem run_lineParser (mem : Memory) (hst : st.IsView) :
    ∃ term n, (lineParser mem).run st = some (some (st.removePrefix n, lineOf (st.text mem))) ∧
      n = (lineOf (st.text mem)).length + term.length ∧
      Splits (st.text mem) (lineOf (st.text mem)) term ((st.removePrefix n).text mem) := by
  have hlen : (st.text mem).length < 2 ^ 64 := by
    have := hst.end_lt
    rw [State.length_text]; omega
  have hrun : ∀ n v, lineText (st.text mem) = some (some (n, v)) →
      (lineParser mem).run st = some (some (st.removePrefix n, v)) := by
    intro n v h
    rw [lineParser_reads.run_eq hst.valid, h]; rfl
  by_cases h : ch '\n' ∈ st.text mem
  · obtain ⟨a, r, htext, ha⟩ := List.eq_append_cons_of_mem h
    obtain ⟨term, hsplits, hterm⟩ := splits_append (r := r) ha
    rw [htext] at hlen
    have hline : lineOf (st.text mem) = dropCR a := by rw [htext, lineOf_append ha]
    rw [hline]
    refine ⟨term, a.length + 1, hrun _ _ ?_, hterm.symm, ?_⟩
    · rw [htext, lineText_append hlen ha]
    · have hdrop : (a ++ ch '\n' :: r).drop (a.length + 1) = r := by
        rw [List.append_cons, List.drop_left' (by simp)]
      rw [State.text_removePrefix, htext, hdrop]
      exact hsplits
  · rw [lineOf_of_not_mem h]
    refine ⟨[], (st.text mem).length, hrun _ _ (lineText_of_not_mem hlen h), rfl, ?_⟩
    rw [State.text_removePrefix, List.drop_length]
    exact splits_of_not_mem h

/-! ### All lines -/

/-- A call of `parse_line`, after which the remainder is parsed next unless it is empty. -/
def lineRound (mem : Memory) (x : State × List (List UInt8)) :
    Option (Round (State × List (List UInt8)) (List (List UInt8))) :=
  (lineParser mem).ifParse x.1
    (fun rest line =>
      if rest.empty then some (.done (x.2 ++ [line])) else some (.next (rest, x.2 ++ [line])))
    none

/-- The lines that `parse_line` returns when it is applied until the remainder is empty. -/
def lines (mem : Memory) (st : State) : Option (List (List UInt8)) := loop (lineRound mem) (st, [])

/-- Lines with their terminators that a text is split into, one after the other. -/
inductive SplitsAll : List UInt8 → List (List UInt8 × List UInt8) → Prop
  | last {text line term : List UInt8} (h : Splits text line term []) : SplitsAll text [(line, term)]
  | next {text line term rest : List UInt8} {ls : List (List UInt8 × List UInt8)}
      (h : Splits text line term rest) (hne : rest ≠ []) (hrest : SplitsAll rest ls) :
      SplitsAll text ((line, term) :: ls)

variable {ls : List (List UInt8 × List UInt8)}

/-- Where something is left, the line was ended by an LF. -/
theorem Splits.lf_mem (h : Splits text line term rest) (hne : rest ≠ []) : ch '\n' ∈ term := by
  have hmem : ch '\n' ∈ text := by
    by_contra hn
    exact hne (h.last hn).2
  rcases h.ended hmem with ⟨rfl, -⟩ | rfl <;> simp

theorem SplitsAll.flatMap_eq (h : SplitsAll text ls) : (ls.flatMap fun l => l.1 ++ l.2) = text := by
  induction h with
  | last h => simp [h.text_eq]
  | next h _ _ ih => simp [ih, h.text_eq]

theorem SplitsAll.length_le (h : SplitsAll text ls) : ls.length ≤ text.count (ch '\n') + 1 := by
  induction h with
  | last h => simp
  | next h hne _ ih =>
    have hpos := List.count_pos_iff.2 (h.lf_mem hne)
    simp only [h.text_eq, List.count_append, List.length_cons]
    omega

theorem loop_lineRound (mem : Memory) (hst : st.IsView) (acc : List (List UInt8)) :
    ∃ ls, loop (lineRound mem) (st, acc) = some (acc ++ ls.map Prod.fst) ∧
      SplitsAll (st.text mem) ls := by
  induction hn : (st.text mem).length using Nat.strong_induction_on generalizing st acc with
  | _ n ih =>
    obtain ⟨term, k, hrun, hk, hsplits⟩ := run_lineParser mem hst
    have hround : lineRound mem (st, acc) = if (st.removePrefix k).empty then
        some (.done (acc ++ [lineOf (st.text mem)]))
        else some (.next (st.removePrefix k, acc ++ [lineOf (st.text mem)])) := Parser.ifParse_some hrun
    by_cases he : (st.removePrefix k).empty = true
    · rw [if_pos he] at hround
      rw [State.text_eq_nil.2 (State.empty_eq_true.1 he)] at hsplits
      exact ⟨[(lineOf (st.text mem), term)], loop_done hround, .last hsplits⟩
    · rw [if_neg he] at hround
      have hne : (st.removePrefix k).text mem ≠ [] := fun h =>
        he (State.empty_eq_true.2 (State.text_eq_nil.1 h))
      -- the line had a terminator, so that less than `n` characters are left
      have hterm := List.length_pos_of_mem (hsplits.lf_mem hne)
      have htext := congrArg List.length hsplits.text_eq
      simp only [List.length_append] at htext
      have hle : k ≤ (st.text mem).length := by omega
      have hview : (st.removePrefix k).IsView := ⟨(State.suffix_removePrefix hle hst.valid).valid, hst.end_lt⟩
      obtain ⟨ls, hloop, hall⟩ := ih _ (by omega) hview (acc ++ [lineOf (st.text mem)]) rfl
      refine ⟨(lineOf (st.text mem), term) :: ls, ?_, .next hsplits hne hall⟩
      rw [loop_next hround, hloop, List.map_cons, ← List.append_cons]

/-- Splitting into lines loses nothing: not in one call, and not in the calls that go through the whole
text, one for each line. -/
theorem lines_lose_nothing (mem : Memory) (hst : st.IsView) :
    (∃ line term n, (lineParser mem).run st = some (some (st.removePrefix n, line)) ∧
      n = line.length + term.length ∧
      Splits (st.text mem) line term ((st.removePrefix n).text mem)) ∧
    ∃ ls, lines mem st = some (ls.map Prod.fst) ∧ SplitsAll (st.text mem) ls ∧
      ls.length ≤ (st.text mem).count (ch '\n') + 1 ∧
      (ls.flatMap fun l => l.1 ++ l.2) = st.text mem := by
  constructor
  · obtain ⟨term, n, hrun, hn, hsplits⟩ := run_lineParser mem hst
    exact ⟨_, term, n, hrun, hn, hsplits⟩
  · obtain ⟨ls, hloop, hall⟩ := loop_lineRound mem hst []
    exact ⟨ls, hloop, hall, hall.length_le, hall.flatMap_eq⟩

/-- Two lines, the second of them without a terminator. -/
theorem lines_lose_nothing_two :
    let st := State.ofLength 4
    let mem := Memory.ofText [ch 'a', ch '\r', ch '\n', ch 'b']
    ∃ ls : List (List UInt8 × List UInt8), lines mem st = some (ls.map Prod.fst) ∧ ls.length ≤ 2 ∧
      (ls.flatMap fun l => l.1 ++ l.2) = st.text mem := by
  intro st mem
  have hst : st.IsView := ⟨by decide, by decide⟩
  obtain ⟨-, ls, hlines, -, hlen, htext⟩ := lines_lose_nothing mem hst
  exact ⟨ls, hlines, hlen, htext⟩

/-! ### The end of a line -/

/-- The end of a text that `parse_line` takes the line-ending characters off: before an LF no more than
one CR, and at the end of the input none. -/
def PlainEnding (text : List UInt8) : Prop :=
  if ch '\n' ∈ text then ¬ [ch '\r', ch '\r'] <:+ text.takeWhile (· ≠ ch '\n')
  else text.getLast? ≠ some (ch '\r')

theorem getLast?_dropCR (text : List UInt8) :
    (dropCR text).getLast? = some (ch '\r') ↔ [ch '\r', ch '\r'] <:+ text := by
  rw [dropCR]
  split
  · rename_i h
    obtain ⟨b, rfl⟩ := List.getLast?_eq_some_iff.1 h
    rw [List.dropLast_concat, List.getLast?_eq_some_iff]
    constructor
    · rintro ⟨c, rfl⟩; exact ⟨c, by simp⟩
    · rintro ⟨c, hc⟩
      exact ⟨c, List.append_cancel_right (by rw [← hc]; simp : b ++ [ch '\r'] = (c ++ [ch '\r']) ++ [ch '\r'])⟩
  · rename_i h
    constructor
    · intro h'
      exact absurd h' h
    · rintro ⟨c, rfl⟩
      simp at h

/-- The line that `parse_line` returns carries no line-ending characters exactly when the text has a
plain ending. -/
theorem line_without_ending_iff (mem : Memory) (hst : st.IsView) :
    ∃ rest line, (lineParser mem).run st = some (some (rest, line)) ∧
      (ch '\n' ∉ line ∧ line.getLast? ≠ some (ch '\r') ↔ PlainEnding (st.text mem)) := by
  obtain ⟨term, n, hrun, -, hsplits⟩ := run_lineParser mem hst
  refine ⟨_, _, hrun, ?_⟩
  rw [and_iff_right hsplits.no_lf, PlainEnding, lineOf]
  split
  · rw [ne_eq, getLast?_dropCR]
  · rfl

/-- `a`, CR, LF, `b`: the text has a plain ending, and the line is `a`. -/
theorem line_without_ending_crlf :
    let st := State.ofLength 4
    let mem := Memory.ofText [ch 'a', ch '\r', ch '\n', ch 'b']
    PlainEnding (st.text mem) ∧ ∃ rest line,
      (lineParser mem).run st = some (some (rest, line)) ∧ line = [ch 'a'] ∧ rest.text mem = [ch 'b'] ∧
        ch '\n' ∉ line ∧ line.getLast? ≠ some (ch '\r') := by
  intro st mem
  have hplain : PlainEnding (st.text mem) := by unfold PlainEnding; decide
  obtain ⟨rest, line, hrun, hline⟩ := line_without_ending_iff mem (show st.IsView from ⟨by decide, by decide⟩)
  have ha : (lineParser mem).run st = some (some (⟨4, 5⟩, [ch 'a'])) := rfl
  obtain ⟨rfl, rfl⟩ : rest = ⟨4, 5⟩ ∧ line = [ch 'a'] := by simpa [hrun] using ha
  exact ⟨hplain, _, _, hrun, rfl, rfl, hline.2 hplain⟩

/-- At the end of the input the CR stays in the line, and so does the first of two before an LF. -/
theorem line_ends_in_cr :
    (∃ rest line, (lineParser (Memory.ofText [ch 'a', ch '\r'])).run (State.ofLength 2) =
        some (some (rest, line)) ∧ ¬ (ch '\n' ∉ line ∧ line.getLast? ≠ some (ch '\r'))) ∧
    ∃ rest line, (lineParser (Memory.ofText [ch 'a', ch '\r', ch '\r', ch '\n'])).run
        (State.ofLength 4) = some (some (rest, line)) ∧
      ¬ (ch '\n' ∉ line ∧ line.getLast? ≠ some (ch '\r')) :=
  ⟨⟨⟨3, 3⟩, [ch 'a', ch '\r'], by rfl, by decide⟩, ⟨⟨5, 5⟩, [ch 'a', ch '\r'], by rfl, by decide⟩⟩

end Noam
