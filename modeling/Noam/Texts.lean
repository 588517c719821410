import Noam.Abstraction

/-!
# Intrinsic parsers on texts

On a valid state an intrinsic parser sees nothing but the characters of the state: `p.Reads mem F`
says that `p` takes the characters and returns the value that the function `F` of the text says, and
never takes more than there are. `parse_string` is not such a parser: it may look at the character
after its state.
-/

namespace Noam
open GetResult ValueType

variable {V W : ValueType} {g : Bool} {mem : Memory} {st : State}

/-- For a text: no result, failure, or how many characters are taken and the value. -/
abbrev OnText (V : ValueType) := List UInt8 → Option (Option (Nat × V))

structure Parser.Reads (mem : Memory) (p : Parser g V) (F : OnText V) : Prop where
  parse_eq : ∀ st, st.Valid → p.parse st =
    (F (st.text mem)).bind fun x => ofOutcome (x.map fun y => (st.removePrefix y.1, y.2))
  le_length : ∀ {text n v}, F text = some (some (n, v)) → n ≤ text.length

theorem Parser.Reads.suffix {p : Parser g V} {F : OnText V} (h : p.Reads mem F) :
    p.SuffixReturning := by
  intro st hv st' v hr
  rw [Parser.run, h.parse_eq st hv] at hr
  rcases hF : F (st.text mem) with _ | _ | ⟨n, w⟩ <;> rw [hF] at hr
  · cases hr
  · cases g
    · exact absurd (Option.some.inj hr) (by simp)
    · cases hr
  · have hle := h.le_length hF
    rw [Option.bind_some, Option.map_some, ofOutcome_some, Option.map_some, outcome_of] at hr
    split at hr
    · cases hr; exact State.suffix_removePrefix hle hv
    · cases hr

/-- `size()` as a `size_t`, on a valid state. -/
theorem toSizeT_size (mem : Memory) (h : st.Valid) :
    toSizeT st.size = (st.text mem).length % 2 ^ 64 := by
  rw [toSizeT, State.size_eq mem h]; omega

theorem read_of_le {n : Nat} (h : n ≤ (st.text mem).length) :
    mem.read st._begin n = (st.text mem).take n := by
  rw [State.length_text] at h
  rw [State.text, Memory.take_read, Nat.min_eq_left h]

/-! ### `pure`, `parse_charconv` -/

def pureText (v : V) : OnText V := fun _ => some (some (0, v))

theorem pureParser_reads (v : V) : (pureParser v).Reads mem (pureText v) := by
  refine ⟨fun st _ => rfl, fun {text n w} h => ?_⟩
  cases h; exact Nat.zero_le _

theorem charconv_reads (fc : FromChars V) :
    (charconv mem fc).Reads mem fun text => some (fc.fromChars text) := by
  refine ⟨fun st _ => ?_, fun {text n v} h => (fc.read_le (Option.some.inj h)).2⟩
  unfold charconv
  simp only
  rcases fc.fromChars (st.text mem) with _ | ⟨n, v⟩ <;> rfl

/-! ### Literals -/

def literalText (lits : List AnyLiteral) (v : V) : OnText V := fun text =>
  some ((AnyLiteral.firstPrefix lits text).map fun lit => (lit.size, v))

theorem literalText_le {lits : List AnyLiteral} {v w : V} {text : List UInt8} {n : Nat}
    (h : literalText lits v text = some (some (n, w))) : n ≤ text.length := by
  obtain ⟨lit, hlit, heq⟩ := Option.map_eq_some_iff.1 (Option.some.inj h)
  cases heq
  have hle := (AnyLiteral.prefix_of_firstPrefix hlit).length_le
  rwa [AnyLiteral.length_text] at hle

/-- The body of `literal`, `literal_makes` and `literal_constant`. -/
theorem checkAndUpdateAny_reads (lits : List AnyLiteral) (v : V) (h : st.Valid) :
    (match AnyLiteral.checkAndUpdateAny mem lits st with
      | (true, st) => some (GetResult.of st v)
      | (false, _) => some failed : Option (GetResult V false)) =
    (literalText lits v (st.text mem)).bind fun x =>
      ofOutcome (x.map fun y => (st.removePrefix y.1, y.2)) := by
  rw [AnyLiteral.checkAndUpdateAny_eq lits h, literalText]
  rcases AnyLiteral.firstPrefix lits (st.text mem) with _ | lit <;> rfl

theorem literal_reads (lits : List AnyLiteral) :
    (literal mem lits).Reads mem (literalText lits ()) :=
  ⟨fun _ h => checkAndUpdateAny_reads (V := empty) lits () h, literalText_le⟩

/-- On every state, a null or an overshot one as well. -/
theorem run_literal_char (mem : Memory) (c : UInt8) (st : State) : (literal mem [.charLiteral c]).run st =
    some (if st.startsWithChar mem c then some (st.removePrefix 1, ()) else none) := by
  have hgood : (st.removePrefix 1).good = true := by rw [State.good_iff]; exact Nat.succ_pos _
  by_cases hc : st.startsWithChar mem c = true
  · simp [Parser.run, literal, AnyLiteral.checkAndUpdateAny, AnyLiteral.checkAndUpdate, hc, kept_of_good hgood]
  · simp [Parser.run, literal, AnyLiteral.checkAndUpdateAny, AnyLiteral.checkAndUpdate, hc]

theorem literalMakes_reads (T : ValueType) (hT : T.default?.isSome) (lits : List AnyLiteral) :
    (literalMakes mem T hT lits).Reads mem (literalText lits (T.default?.get hT)) :=
  ⟨fun _ h => checkAndUpdateAny_reads lits _ h, literalText_le⟩

theorem literalConstant_reads (v : V) (lits : List AnyLiteral) :
    (literalConstant mem v lits).Reads mem (literalText lits v) :=
  ⟨fun _ h => checkAndUpdateAny_reads lits _ h, literalText_le⟩

/-! ### `match_chs`, `count_ch` -/

/-- How many characters at the start of a text are in `chars`. -/
def runLength (chars text : List UInt8) : Nat := (text.takeWhile (· ∈ chars)).length

theorem runLength_le (chars text : List UInt8) : runLength chars text ≤ text.length :=
  (List.takeWhile_prefix _).length_le

theorem skipChars_eq (mem : Memory) (chars : List UInt8) (n p : Nat) :
    skipChars mem chars n p = p + runLength chars (mem.read p n) := by
  induction n generalizing p with
  | zero => rfl
  | succ n ih =>
    rw [skipChars, Memory.read, runLength, List.takeWhile_cons]
    by_cases h : mem p ∈ chars
    · rw [if_pos h, ih, runLength]; simp [h]; omega
    · rw [if_neg h]; simp [h]

theorem countLoop_eq (mem : Memory) (chars : List UInt8) (st : State) (n i : Nat) :
    countLoop mem chars st n i = i + runLength chars (mem.read (st._begin + i) n) := by
  induction n generalizing i with
  | zero => rfl
  | succ n ih =>
    rw [countLoop, Memory.read, runLength, List.takeWhile_cons]
    by_cases h : mem (st._begin + i) ∈ chars
    · rw [if_pos (show st.get mem i ∈ chars from h), ih, runLength]; simp [h, Nat.add_assoc]; omega
    · rw [if_neg (show ¬ st.get mem i ∈ chars from h)]; simp [h]

def matchChsText (chars : List UInt8) : OnText empty := fun text =>
  some (some (runLength chars text, ()))

theorem zeroOrMoreChars_reads (chars : List UInt8) :
    (zeroOrMoreChars mem chars).Reads mem (matchChsText chars) := by
  constructor
  · intro st _
    show some (PureResult.mk ⟨skipChars mem chars (st._end - st._begin) st._begin, st._end⟩ () :
      PureResult empty) = _
    rw [skipChars_eq]; rfl
  · intro text n v h
    cases h; exact runLength_le _ _

def countChText (chars : List UInt8) : OnText sizeT := fun text =>
  let n := runLength chars (text.take (text.length % 2 ^ 64))
  some (some (n, n))

theorem countChars_reads (chars : List UInt8) :
    (countChars mem chars).Reads mem (countChText chars) := by
  constructor
  · intro st hv
    show some (PureResult.mk (st.removePrefix (countLoop mem chars st (toSizeT st.size) 0))
      (countLoop mem chars st (toSizeT st.size) 0) : PureResult sizeT) = _
    rw [countLoop_eq, toSizeT_size mem hv, Nat.add_zero, read_of_le (Nat.mod_le _ _), Nat.zero_add]
    rfl
  · intro text n v h
    cases h
    exact Nat.le_trans (runLength_le _ _) (by rw [List.length_take]; exact Nat.min_le_right _ _)

/-! ### `parse_bool` -/

def boolText : OnText bool := fun text =>
  if [ch 't', ch 'r', ch 'u', ch 'e'].isPrefixOf text then some (some (4, true))
  else if [ch 'f', ch 'a', ch 'l', ch 's', ch 'e'].isPrefixOf text then some (some (5, false))
  else some none

theorem boolParser_reads : (boolParser mem).Reads mem boolText := by
  constructor
  · intro st hv
    show (if _ then some _ else if _ then some _ else some failed) = _
    rw [State.startsWithArray, State.startsWithArray, State.startsWithChars_eq hv,
      State.startsWithChars_eq hv, boolText]
    split
    · rfl
    · split <;> rfl
  · intro text n v h
    rw [boolText] at h
    split at h
    · rename_i hp; cases h; exact (List.isPrefixOf_iff_prefix.1 hp).length_le
    · split at h
      · rename_i hp; cases h; exact (List.isPrefixOf_iff_prefix.1 hp).length_le
      · cases h

/-! ### `parse_line` -/

theorem lineLoop_eq (mem : Memory) (st : State) (n i : Nat) :
    lineLoop mem st n i =
      ((mem.read (st._begin + i) n).findIdx? (· = ch '\n')).map (· + i) := by
  induction n generalizing i with
  | zero => rfl
  | succ n ih =>
    rw [lineLoop, Memory.read, List.findIdx?_cons]
    by_cases h : mem (st._begin + i) = ch '\n'
    · rw [if_neg (show ¬ st.get mem i ≠ ch '\n' from not_not.2 h)]; simp [h]
    · rw [if_pos (show st.get mem i ≠ ch '\n' from h), ih]
      have hc : (fun k => k + (i + 1)) = (fun k => k + i) ∘ fun k => k + 1 := by
        funext k; show k + (i + 1) = k + 1 + i; omega
      simp [h, Nat.add_assoc, hc]

def lineText : OnText stringView := fun text =>
  let size := text.length % 2 ^ 64
  match (text.take size).findIdx? (· = ch '\n') with
  | some i =>
    let lineSize := if 0 < i ∧ text[i - 1]? = some (ch '\r') then i - 1 else i
    some (some (i + 1, text.take lineSize))
  | none => some (some (size, text))

theorem text_substrCount {n : Nat} (hv : st.Valid) (h : n ≤ (st.text mem).length % 2 ^ 64) :
    (st.substrCount 0 n).text mem = (st.text mem).take n := by
  have hmax : toSizeT (st.size - (0 : Nat)) = (st.text mem).length % 2 ^ 64 := by
    rw [← toSizeT_size mem hv]; congr 1; omega
  unfold State.substrCount
  rw [hmax, if_neg (by omega), ← read_of_le (by omega)]
  simp [State.text]

theorem lineParser_reads : (lineParser mem).Reads mem lineText := by
  constructor
  · intro st hv
    have hs := toSizeT_size mem hv
    have hl : lineLoop mem st (toSizeT st.size) 0 =
        ((st.text mem).take ((st.text mem).length % 2 ^ 64)).findIdx? (· = ch '\n') := by
      rw [lineLoop_eq, hs, Nat.add_zero, read_of_le (Nat.mod_le _ _)]; simp
    unfold lineParser lineText
    simp only [hl]
    rcases hi : ((st.text mem).take ((st.text mem).length % 2 ^ 64)).findIdx? (· = ch '\n') with _ | i
    · show some (PureResult.mk (st.substr (toSizeT st.size)) (st.text mem) : PureResult stringView) = _
      rw [hs]; rfl
    · have hlt : i < (st.text mem).length % 2 ^ 64 := by
        have := (List.findIdx?_eq_some_iff_getElem.1 hi).1
        rw [List.length_take] at this; omega
      -- a CR in front of the LF is looked for in the text where the source reads `st[i - 1]`
      have hcr : (0 < i ∧ st.get mem (i - 1) = ch '\r') ↔
          (0 < i ∧ (st.text mem)[i - 1]? = some (ch '\r')) := by
        rw [State.get_eq (by omega), Option.some.injEq]
      simp only [hcr]
      rw [text_substrCount hv (by split <;> omega)]
      rfl
  · intro text n v h
    simp only [lineText] at h
    rcases hi : (text.take (text.length % 2 ^ 64)).findIdx? (· = ch '\n') with _ | i <;>
      simp only [hi] at h <;> cases h
    · exact Nat.mod_le _ _
    · have := (List.findIdx?_eq_some_iff_getElem.1 hi).1
      rw [List.length_take] at this; omega

/-! ### `test_prefix`, `require_prefix` -/

def testPrefixText (pre : List UInt8) : OnText bool := fun text =>
  if pre.isPrefixOf text then some (some (pre.length % 2 ^ 64, true)) else some (some (0, false))

theorem testPrefix_reads {pre : State} (hp : pre.Valid) :
    (testPrefix mem pre).Reads mem (testPrefixText (pre.text mem)) := by
  constructor
  · intro st hv
    show (if st.startsWith mem pre then
        (some (PureResult.mk (st.substr (toSizeT pre.size)) true) : Option (PureResult bool))
      else some (PureResult.mk st false)) = _
    rw [State.startsWith_eq hv hp, toSizeT_size mem hp]
    unfold testPrefixText
    split <;> rfl
  · intro text n v h
    rw [testPrefixText] at h
    split at h <;> cases h
    · rename_i hpre
      exact Nat.le_trans (Nat.mod_le _ _) (List.isPrefixOf_iff_prefix.1 hpre).length_le
    · exact Nat.zero_le _

def requirePrefixText (pre : State) (mem : Memory) : OnText state := fun text =>
  if (pre.text mem).isPrefixOf text then some (some ((pre.text mem).length % 2 ^ 64, pre))
  else some none

theorem requirePrefix_reads {pre : State} (hp : pre.Valid) :
    (requirePrefix mem pre).Reads mem (requirePrefixText pre mem) := by
  constructor
  · intro st hv
    unfold requirePrefix requirePrefixText
    simp only [State.startsWith_eq hv hp, toSizeT_size mem hp]
    split <;> rfl
  · intro text n v h
    rw [requirePrefixText] at h
    split at h <;> cases h
    rename_i hpre
    exact Nat.le_trans (Nat.mod_le _ _) (List.isPrefixOf_iff_prefix.1 hpre).length_le

/-! ### `view_parser` -/

/-- One round of the loop of `view_parser`, `n` characters into the text `view` that it scans. -/
def viewTextRound (end_ escape : AnyLiteral) (view : List UInt8) (n : Nat) :
    Option (Loop.Round Nat (Option (Nat × List UInt8))) :=
  if view.drop n ≠ [] then
    if end_.text.isPrefixOf (view.drop n) then some (.done (some (n + end_.size, view.take n)))
    else if escape.text.isPrefixOf (view.drop n) then
      if end_.text.isPrefixOf (view.drop (n + escape.size)) then
        some (.next (n + escape.size + end_.size))
      else some (.next (n + escape.size))
    else some (.next (n + 1))
  else some (.done none)

def viewText (begin_ end_ escape : AnyLiteral) : OnText stringView := fun text =>
  if begin_.text.isPrefixOf text then
    (Loop.loop (viewTextRound end_ escape (text.drop begin_.size)) 0).map
      (Option.map fun x => (begin_.size + x.1, x.2))
  else some none

theorem size_pos_iff (mem : Memory) (h : st.Valid) : st.size > 0 ↔ st.text mem ≠ [] := by
  rw [State.size_eq mem h, ← List.length_pos_iff]; omega

/-- The state `n` characters into the text of `st` that is scanned. -/
def ViewAt (mem : Memory) (st st' : State) (n : Nat) : Prop :=
  st' = st.removePrefix n ∧ n ≤ (st.text mem).length

theorem ViewAt.valid {st' : State} {n : Nat} (hv : st.Valid) (h : ViewAt mem st st' n) :
    st'.Valid := h.1 ▸ (State.suffix_removePrefix h.2 hv).valid

theorem ViewAt.text {st' : State} {n : Nat} (h : ViewAt mem st st' n) :
    st'.text mem = (st.text mem).drop n := h.1 ▸ State.text_removePrefix n

theorem ViewAt.step {st' : State} {n k : Nat} {pre : List UInt8} (h : ViewAt mem st st' n)
    (hk : pre.length = k) (hp : pre.isPrefixOf ((st.text mem).drop n) = true) :
    ViewAt mem st (st'.removePrefix k) (n + k) := by
  obtain ⟨rfl, hn⟩ := h
  have hle := (List.isPrefixOf_iff_prefix.1 hp).length_le
  rw [List.length_drop] at hle
  exact ⟨State.removePrefix_removePrefix n k, by omega⟩

theorem rel_viewRound (end_ escape : AnyLiteral) {st' : State} {n : Nat} (hv : st.Valid)
    (h : ViewAt mem st st' n) :
    Option.Rel (Loop.Round.Rel (ViewAt mem st) fun b c =>
        b = c.map fun x => (st.removePrefix x.1, x.2))
      (viewRound mem end_ escape st._begin st') (viewTextRound end_ escape (st.text mem) n) := by
  have hv' := h.valid hv
  unfold viewRound viewTextRound
  rw [← h.text]
  by_cases hne : st'.text mem = []
  · rw [if_neg (by rw [size_pos_iff mem hv']; exact not_not.2 hne), if_neg (not_not.2 hne)]
    exact .some (.done rfl)
  rw [if_pos ((size_pos_iff mem hv').2 hne), if_pos hne]
  rw [AnyLiteral.checkAndUpdate_eq end_ hv']
  by_cases he : end_.text.isPrefixOf (st'.text mem) = true
  · rw [if_pos he, if_pos he]
    refine .some (.done ?_)
    have hb : st'._begin - st._begin = n := by rw [h.1]; simp
    rw [hb, read_of_le h.2, h.1, State.removePrefix_removePrefix]; rfl
  rw [if_neg he, if_neg he]
  show Option.Rel _ (match escape.checkAndUpdate mem st' with
    | (true, st) => some (Loop.Round.next (end_.checkAndUpdate mem st).2)
    | (false, st) => some (Loop.Round.next (st.removePrefix 1))) _
  rw [AnyLiteral.checkAndUpdate_eq escape hv']
  -- the escape and, when it follows, the end delimiter are taken together
  by_cases hs : escape.text.isPrefixOf (st'.text mem) = true
  · rw [if_pos hs, if_pos hs]
    have h₁ := h.step escape.length_text (h.text ▸ hs)
    show Option.Rel _ (some (Loop.Round.next (end_.checkAndUpdate mem (st'.removePrefix escape.size)).2)) _
    rw [AnyLiteral.checkAndUpdate_eq _ (h₁.valid hv), h₁.text]
    by_cases he' : end_.text.isPrefixOf ((st.text mem).drop (n + escape.size)) = true
    · rw [if_pos he', if_pos he']
      exact .some (.next (h₁.step end_.length_text he'))
    · rw [if_neg he', if_neg he']
      exact .some (.next h₁)
  · rw [if_neg hs, if_neg hs]
    refine .some (.next ⟨by rw [h.1, State.removePrefix_removePrefix], ?_⟩)
    have hlen := List.length_pos_iff.2 hne
    rw [h.text, List.length_drop] at hlen
    omega

theorem viewTextRound_le {end_ escape : AnyLiteral} {view : List UInt8} {n : Nat}
    {o : Option (Nat × List UInt8)}
    (h : Loop.loop (viewTextRound end_ escape view) n = some o) :
    ∀ x, o = some x → x.1 ≤ view.length := by
  refine Loop.loop_induct (k := viewTextRound end_ escape view)
    (motive := fun _ o => ∀ x, o = some x → x.1 ≤ view.length)
    (fun n o hr x ho => ?_) (fun _ _ _ _ ih => ih) h
  subst ho
  unfold viewTextRound at hr
  split at hr
  · rename_i hne
    split at hr
    · rename_i he
      cases hr
      have hle := (List.isPrefixOf_iff_prefix.1 he).length_le
      have hlen := List.length_pos_iff.2 hne
      rw [AnyLiteral.length_text] at hle
      rw [List.length_drop] at hle hlen
      show n + end_.size ≤ view.length
      omega
    · split at hr
      · split at hr <;> cases hr
      · cases hr
  · cases hr

/-- The scan ends when the escape literal is not empty: every round that goes on takes characters. -/
theorem isSome_scan {end_ escape : AnyLiteral} {view : List UInt8} (h : 0 < escape.size) (n : Nat) :
    (Loop.loop (viewTextRound end_ escape view) n).isSome := by
  refine Loop.isSome_loop (I := fun _ => True) (fun n => view.length - n) (fun n _ => ?_)
    (fun n m _ hm => ⟨trivial, ?_⟩) trivial
  · unfold viewTextRound
    split
    · split
      · rfl
      · split
        · split <;> rfl
        · rfl
    · rfl
  · unfold viewTextRound at hm
    split at hm
    · rename_i hne
      have hlt := List.length_pos_iff.2 hne
      rw [List.length_drop] at hlt
      -- the escape is not empty, so every branch goes on to a later character
      have hnm : n < m := by
        split at hm
        · cases hm
        · split at hm
          · split at hm <;> cases hm <;> omega
          · cases hm; omega
      omega
    · cases hm

theorem isSome_viewText {begin_ end_ escape : AnyLiteral} (h : 0 < escape.size) (text : List UInt8) :
    (viewText begin_ end_ escape text).isSome := by
  unfold viewText
  split
  · rw [Option.isSome_map]; exact isSome_scan h 0
  · rfl

theorem viewText_le {begin_ end_ escape : AnyLiteral} {text v : List UInt8} {n : Nat}
    (h : viewText begin_ end_ escape text = some (some (n, v))) : n ≤ text.length := by
  rw [viewText] at h
  split at h
  · rename_i hb
    obtain ⟨o, ho, heq⟩ := Option.map_eq_some_iff.1 h
    obtain ⟨⟨m, w⟩, rfl, heq⟩ := Option.map_eq_some_iff.1 heq
    cases heq
    have hm : m ≤ (text.drop begin_.size).length := viewTextRound_le ho (m, w) rfl
    have hle := (List.isPrefixOf_iff_prefix.1 hb).length_le
    rw [AnyLiteral.length_text] at hle
    rw [List.length_drop] at hm
    show begin_.size + m ≤ text.length
    omega
  · cases h

theorem viewParser_reads (begin_ end_ escape : AnyLiteral) :
    (viewParser mem begin_ end_ escape).Reads mem (viewText begin_ end_ escape) := by
  refine ⟨fun st hv => ?_, viewText_le⟩
  unfold viewParser
  simp only
  rw [AnyLiteral.checkAndUpdate_eq begin_ hv, viewText]
  by_cases hb : begin_.text.isPrefixOf (st.text mem) = true
  · rw [if_pos hb, if_pos hb, ← State.text_removePrefix]
    have h₀ : ViewAt mem st (st.removePrefix begin_.size) (0 + begin_.size) :=
      ViewAt.step ⟨rfl, Nat.zero_le _⟩ begin_.length_text hb
    have hrel := Loop.rel_loop (R := ViewAt mem (st.removePrefix begin_.size))
      (fun st' n h => rel_viewRound end_ escape (h₀.valid hv) h)
      (s := st.removePrefix begin_.size) (t := 0) ⟨rfl, Nat.zero_le _⟩
    show (Loop.loop (viewRound mem end_ escape (st.removePrefix begin_.size)._begin)
      (st.removePrefix begin_.size)).bind _ = _
    generalize Loop.loop (viewRound mem end_ escape (st.removePrefix begin_.size)._begin)
      (st.removePrefix begin_.size) = x at *
    generalize Loop.loop (viewTextRound end_ escape ((st.removePrefix begin_.size).text mem)) 0 = y
      at *
    cases hrel with
    | none => rfl
    | some h =>
      subst h
      rename_i o
      rcases o with _ | ⟨n, v⟩
      · rfl
      · show some (GetResult.of (V := stringView) ((st.removePrefix begin_.size).removePrefix n) v) = _
        rw [State.removePrefix_removePrefix]; rfl
  · rw [if_neg hb, if_neg hb]; rfl

/-! ### Any state

No intrinsic parser moves `_begin` back, whatever the state it starts from. -/

def Parser.Advances (p : Parser g V) : Prop :=
  ∀ st st' v, p.run st = some (some (st', v)) → st._begin ≤ st'._begin

theorem Parser.Advances.keepsNonNull {p : Parser g V} (h : p.Advances) : p.KeepsNonNull :=
  fun st st' v hs hr => State.good_of_le hs (h st st' v hr)

theorem Parser.advances_pure {p : Parser true V}
    (h : ∀ st, ∃ n v, p.parse st = some (PureResult.mk (st.removePrefix n) v)) : p.Advances := by
  intro st st' v hr
  obtain ⟨n, w, hp⟩ := h st
  rw [Parser.run_of_parse hp] at hr
  cases hr
  exact Nat.le_add_right _ _

theorem Parser.advances_fallible {p : Parser false V}
    (h : ∀ st r, p.parse st = some r → r = .failed ∨ ∃ st' v, r = .of st' v ∧ st._begin ≤ st'._begin) :
    p.Advances := by
  intro st st' v hr
  obtain ⟨r, hp, hb, rfl, -⟩ := Parser.parse_of_run hr
  rcases h st r hp with rfl | ⟨st', w, rfl, hle⟩
  · rw [toBool_failed] at hb; cases hb
  · rwa [getState_of]

theorem pureParser_advances (v : V) : (pureParser v).Advances :=
  Parser.advances_pure fun _ => ⟨0, v, rfl⟩

theorem charconv_advances (fc : FromChars V) : (charconv mem fc).Advances := by
  refine Parser.advances_fallible fun st r hr => ?_
  unfold charconv at hr
  simp only at hr
  split at hr <;> cases hr
  · exact .inr ⟨_, _, rfl, Nat.le_add_right _ _⟩
  · exact .inl rfl

theorem checkAndUpdateAny_advances {lits : List AnyLiteral} {v : V} {r : GetResult V false}
    (hr : (match AnyLiteral.checkAndUpdateAny mem lits st with
      | (true, st) => some (GetResult.of st v)
      | (false, _) => some failed : Option (GetResult V false)) = some r) :
    r = .failed ∨ ∃ st' v, r = .of st' v ∧ st._begin ≤ st'._begin := by
  have h := AnyLiteral.begin_le_checkAndUpdateAny mem lits st
  rcases hc : AnyLiteral.checkAndUpdateAny mem lits st with ⟨_ | _, st'⟩ <;> rw [hc] at h hr <;>
    cases hr
  · exact .inl rfl
  · exact .inr ⟨st', v, rfl, h⟩

theorem literal_advances (lits : List AnyLiteral) : (literal mem lits).Advances :=
  Parser.advances_fallible fun _ _ hr => checkAndUpdateAny_advances (V := empty) hr

theorem literalMakes_advances (T : ValueType) (hT : T.default?.isSome) (lits : List AnyLiteral) :
    (literalMakes mem T hT lits).Advances :=
  Parser.advances_fallible fun _ _ hr => checkAndUpdateAny_advances hr

theorem literalConstant_advances (v : V) (lits : List AnyLiteral) :
    (literalConstant mem v lits).Advances :=
  Parser.advances_fallible fun _ _ hr => checkAndUpdateAny_advances hr

theorem zeroOrMoreChars_advances (chars : List UInt8) : (zeroOrMoreChars mem chars).Advances :=
  Parser.advances_pure fun st => ⟨runLength chars (mem.read st._begin (st._end - st._begin)), (), by
    show some (PureResult.mk ⟨skipChars mem chars (st._end - st._begin) st._begin, st._end⟩ () :
      PureResult empty) = _
    rw [skipChars_eq]; rfl⟩

theorem countChars_advances (chars : List UInt8) : (countChars mem chars).Advances :=
  Parser.advances_pure fun _ => ⟨_, _, rfl⟩

theorem boolParser_advances : (boolParser mem).Advances := by
  refine Parser.advances_fallible fun st r hr => ?_
  unfold boolParser at hr
  simp only at hr
  split at hr
  · cases hr; exact .inr ⟨_, _, rfl, Nat.le_add_right _ _⟩
  · split at hr <;> cases hr
    · exact .inr ⟨_, _, rfl, Nat.le_add_right _ _⟩
    · exact .inl rfl

theorem lineParser_advances : (lineParser mem).Advances := by
  refine Parser.advances_pure fun st => ?_
  unfold lineParser
  simp only
  split
  · exact ⟨_, _, rfl⟩
  · exact ⟨_, _, rfl⟩

theorem testPrefix_advances (pre : State) : (testPrefix mem pre).Advances := by
  refine Parser.advances_pure fun st => ?_
  show ∃ n v, (if st.startsWith mem pre then
      (some (PureResult.mk (st.substr (toSizeT pre.size)) true) : Option (PureResult bool))
    else some (PureResult.mk st false)) = some (PureResult.mk (st.removePrefix n) v)
  by_cases h : st.startsWith mem pre = true
  · rw [if_pos h]; exact ⟨_, _, rfl⟩
  · rw [if_neg h]; exact ⟨0, _, rfl⟩

theorem requirePrefix_advances (pre : State) : (requirePrefix mem pre).Advances := by
  refine Parser.advances_fallible fun st r hr => ?_
  unfold requirePrefix at hr
  simp only at hr
  split at hr <;> cases hr
  · exact .inr ⟨_, _, rfl, Nat.le_add_right _ _⟩
  · exact .inl rfl

theorem viewRound_advances {end_ escape : AnyLiteral} {viewBegin : Nat}
    {o : Option (State × List UInt8)}
    (h : Loop.loop (viewRound mem end_ escape viewBegin) st = some o) :
    ∀ x, o = some x → st._begin ≤ x.1._begin := by
  refine Loop.loop_induct (k := viewRound mem end_ escape viewBegin)
    (motive := fun st o => ∀ x, o = some x → st._begin ≤ x.1._begin)
    (fun st o hr x ho => ?_) (fun st st' o hr ih x ho => Nat.le_trans ?_ (ih x ho)) h
  all_goals
    unfold viewRound at hr
    have he := AnyLiteral.begin_le_checkAndUpdate mem end_ st
    rcases hc : end_.checkAndUpdate mem st with ⟨_ | _, st₁⟩ <;> rw [hc] at he hr
  · have hs := AnyLiteral.begin_le_checkAndUpdate mem escape st₁
    rcases hc' : escape.checkAndUpdate mem st₁ with ⟨_ | _, st₂⟩ <;> simp only [hc'] at hr <;>
      split at hr <;> cases hr <;> cases ho
  · subst ho
    split at hr <;> cases hr
    exact he
  · have hs := AnyLiteral.begin_le_checkAndUpdate mem escape st₁
    rcases hc' : escape.checkAndUpdate mem st₁ with ⟨_ | _, st₂⟩ <;> rw [hc'] at hs <;>
      simp only [hc'] at hr <;> split at hr <;> cases hr
    · exact Nat.le_trans he (Nat.le_trans hs (Nat.le_add_right _ _))
    · exact Nat.le_trans he
        (Nat.le_trans hs (AnyLiteral.begin_le_checkAndUpdate mem end_ st₂))
  · split at hr <;> cases hr

theorem viewParser_advances (begin_ end_ escape : AnyLiteral) :
    (viewParser mem begin_ end_ escape).Advances := by
  refine Parser.advances_fallible fun st r hr => ?_
  unfold viewParser at hr
  have hb := AnyLiteral.begin_le_checkAndUpdate mem begin_ st
  rcases hc : begin_.checkAndUpdate mem st with ⟨_ | _, st₁⟩ <;> rw [hc] at hb <;>
    simp only [hc] at hr
  · cases hr; exact .inl rfl
  · obtain ⟨o, ho, hr⟩ := Option.bind_eq_some_iff.1 hr
    rcases o with _ | ⟨st₂, v⟩ <;> cases hr
    · exact .inl rfl
    · exact .inr ⟨_, _, rfl, Nat.le_trans hb (viewRound_advances ho _ rfl)⟩

end Noam
