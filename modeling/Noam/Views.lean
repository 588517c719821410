import Noam.Framing
import Noam.Progress

/-!
# What `view_parser` frames, and when it ends

`view_parser` scans for the first end delimiter that counts: it succeeds exactly on a framed word, with
the word as its value. Its loop makes progress in every round but one: an empty escape literal matches
everywhere and takes nothing, so the loop then stays at the first character that no end delimiter
starts at.
-/

namespace Noam
open GetResult ValueType Attempt Loop Framing

variable {mem : Memory} {st st' : State} {begin_ end_ escape : AnyLiteral} {view : List UInt8} {n : Nat}

/-! ### The scan -/

theorem drop_eq_append {l p : List UInt8} (h : p <+: l.drop n) :
    l.drop n = p ++ l.drop (n + p.length) := by
  obtain ⟨t, ht⟩ := h
  rw [← List.drop_drop, ← ht, List.drop_left]

theorem viewTextRound_end (hne : view.drop n ≠ []) (h : end_.text <+: view.drop n) :
    viewTextRound end_ escape view n = some (.done (some (n + end_.size, view.take n))) := by
  unfold viewTextRound
  rw [if_pos hne, if_pos (List.isPrefixOf_iff_prefix.2 h)]

theorem viewTextRound_escapeEnd (hne : view.drop n ≠ []) (hend : ¬ end_.text <+: view.drop n)
    (hesc : escape.text <+: view.drop n) (hnext : end_.text <+: view.drop (n + escape.size)) :
    viewTextRound end_ escape view n = some (.next (n + escape.size + end_.size)) := by
  unfold viewTextRound
  rw [if_pos hne, if_neg (mt List.isPrefixOf_iff_prefix.1 hend),
    if_pos (List.isPrefixOf_iff_prefix.2 hesc), if_pos (List.isPrefixOf_iff_prefix.2 hnext)]

theorem viewTextRound_escape (hne : view.drop n ≠ []) (hend : ¬ end_.text <+: view.drop n)
    (hesc : escape.text <+: view.drop n) (hnext : ¬ end_.text <+: view.drop (n + escape.size)) :
    viewTextRound end_ escape view n = some (.next (n + escape.size)) := by
  unfold viewTextRound
  rw [if_pos hne, if_neg (mt List.isPrefixOf_iff_prefix.1 hend),
    if_pos (List.isPrefixOf_iff_prefix.2 hesc), if_neg (mt List.isPrefixOf_iff_prefix.1 hnext)]

theorem viewTextRound_char (hne : view.drop n ≠ []) (hend : ¬ end_.text <+: view.drop n)
    (hesc : ¬ escape.text <+: view.drop n) :
    viewTextRound end_ escape view n = some (.next (n + 1)) := by
  unfold viewTextRound
  rw [if_pos hne, if_neg (mt List.isPrefixOf_iff_prefix.1 hend),
    if_neg (mt List.isPrefixOf_iff_prefix.1 hesc)]

theorem viewTextRound_stop (h : view.drop n = []) :
    viewTextRound end_ escape view n = some (.done none) := by
  unfold viewTextRound
  rw [if_neg (not_not.2 h)]

/-- What a round does, read off the text it starts at. -/
inductive ViewStep (end_ escape : AnyLiteral) (view : List UInt8) (n : Nat) :
    Round Nat (Option (Nat × List UInt8)) → Prop
  | stop (h : view.drop n = []) : ViewStep end_ escape view n (.done none)
  | end_ (h : end_.text <+: view.drop n) :
      ViewStep end_ escape view n (.done (some (n + end_.size, view.take n)))
  | escapeEnd (hend : ¬ end_.text <+: view.drop n) (hesc : escape.text <+: view.drop n)
      (hnext : end_.text <+: view.drop (n + escape.size)) :
      ViewStep end_ escape view n (.next (n + escape.size + end_.size))
  | escape (hend : ¬ end_.text <+: view.drop n) (hesc : escape.text <+: view.drop n)
      (hnext : ¬ end_.text <+: view.drop (n + escape.size)) :
      ViewStep end_ escape view n (.next (n + escape.size))
  | char (hne : view.drop n ≠ []) (hend : ¬ end_.text <+: view.drop n)
      (hesc : ¬ escape.text <+: view.drop n) : ViewStep end_ escape view n (.next (n + 1))

theorem viewStep {x : Round Nat (Option (Nat × List UInt8))}
    (h : viewTextRound end_ escape view n = some x) : ViewStep end_ escape view n x := by
  by_cases hne : view.drop n = []
  · rw [viewTextRound_stop hne] at h; cases h
    exact .stop hne
  by_cases hend : end_.text <+: view.drop n
  · rw [viewTextRound_end hne hend] at h; cases h
    exact .end_ hend
  by_cases hesc : escape.text <+: view.drop n
  · by_cases hnext : end_.text <+: view.drop (n + escape.size)
    · rw [viewTextRound_escapeEnd hne hend hesc hnext] at h; cases h
      exact .escapeEnd hend hesc hnext
    · rw [viewTextRound_escape hne hend hesc hnext] at h; cases h
      exact .escape hend hesc hnext
  · rw [viewTextRound_char hne hend hesc] at h; cases h
    exact .char hne hend hesc

/-- A word of units in front of its end delimiter is scanned to the delimiter. -/
theorem scan_units {w t r : List UInt8} (hsize : 0 < end_.size)
    (h : Units end_.text escape.text w t) (ht : t = end_.text ++ r) (hw : view.drop n = w ++ t) :
    loop (viewTextRound end_ escape view) n =
      some (some (n + w.length + end_.size, view.take (n + w.length))) := by
  have hne : ∀ {l : List UInt8}, l ++ t ≠ [] := by
    intro l hl
    have hlen := congrArg List.length hl
    rw [ht, List.length_append, List.length_append, AnyLiteral.length_text, List.length_nil] at hlen
    omega
  -- every unit is one round of the scan
  induction h generalizing n with
  | nil t =>
    have hend : end_.text <+: view.drop n := by rw [hw, ht]; exact List.prefix_append _ _
    exact loop_done (viewTextRound_end (hw ▸ hne) hend)
  | @escapeEnd w t hend h ih =>
    simp only [List.append_assoc] at hw
    have hesc : escape.text <+: view.drop n := prefix_of_append_eq hw
    have hdrop := drop_eq_append hesc
    rw [hw, List.append_cancel_left_eq, AnyLiteral.length_text] at hdrop
    have hnext : end_.text <+: view.drop (n + escape.size) := prefix_of_append_eq hdrop.symm
    have hdrop' := drop_eq_append hnext
    rw [← hdrop, List.append_cancel_left_eq, AnyLiteral.length_text] at hdrop'
    rw [loop_next (viewTextRound_escapeEnd (by rw [hw, ← List.append_assoc, ← List.append_assoc]; exact hne)
      (hw ▸ hend) hesc hnext), ih ht hdrop'.symm hne]
    simp only [List.length_append, AnyLiteral.length_text, Nat.add_assoc]
  | @escape w t hend hnext h ih =>
    simp only [List.append_assoc] at hw
    have hesc : escape.text <+: view.drop n := prefix_of_append_eq hw
    have hdrop := drop_eq_append hesc
    rw [hw, List.append_cancel_left_eq, AnyLiteral.length_text] at hdrop
    rw [loop_next (viewTextRound_escape (by rw [hw, ← List.append_assoc]; exact hne) (hw ▸ hend) hesc
      (hdrop ▸ hnext)), ih ht hdrop.symm hne]
    simp only [List.length_append, AnyLiteral.length_text, Nat.add_assoc]
  | @char c w t hend hesc h ih =>
    rw [List.cons_append] at hw
    have hdrop : view.drop (n + 1) = w ++ t := by rw [← List.drop_drop, hw]; rfl
    rw [loop_next (viewTextRound_char (by rw [hw]; exact List.cons_ne_nil _ _) (hw ▸ hend) (hw ▸ hesc)),
      ih ht hdrop hne]
    simp only [List.length_cons, Nat.add_assoc, Nat.add_comm 1]

/-- What the scan returns is a word of units in front of its end delimiter. -/
theorem units_of_scan {o : Option (Nat × List UInt8)}
    (h : loop (viewTextRound end_ escape view) n = some o) : ∀ x, o = some x →
    ∃ w r, view.drop n = w ++ (end_.text ++ r) ∧ Units end_.text escape.text w (end_.text ++ r) ∧
      x = (n + w.length + end_.size, view.take (n + w.length)) := by
  refine loop_induct (motive := fun n o => ∀ x, o = some x → ∃ w r, view.drop n = w ++ (end_.text ++ r) ∧
      Units end_.text escape.text w (end_.text ++ r) ∧
      x = (n + w.length + end_.size, view.take (n + w.length)))
    (fun n o hr x ho => ?_) (fun n m o hr ih x ho => ?_) h
  · subst ho
    cases viewStep hr with
    | end_ hend => exact ⟨[], _, drop_eq_append hend, .nil _, rfl⟩
  · -- a round that goes on puts its unit in front of those of the rest
    obtain ⟨w, r, hw, hunits, rfl⟩ := ih x ho
    cases viewStep hr with
    | escapeEnd hend hesc hnext =>
      have hdrop : view.drop n = escape.text ++ (end_.text ++ (w ++ (end_.text ++ r))) := by
        rw [drop_eq_append hesc, AnyLiteral.length_text, drop_eq_append hnext,
          AnyLiteral.length_text, hw]
      refine ⟨escape.text ++ (end_.text ++ w), r, by simp [hdrop], .escapeEnd (hdrop ▸ hend) hunits, ?_⟩
      simp only [List.length_append, AnyLiteral.length_text, Nat.add_assoc]
    | escape hend hesc hnext =>
      have hdrop : view.drop n = escape.text ++ (w ++ (end_.text ++ r)) := by
        rw [drop_eq_append hesc, AnyLiteral.length_text, hw]
      refine ⟨escape.text ++ w, r, by simp [hdrop], .escape (hdrop ▸ hend) (hw ▸ hnext) hunits, ?_⟩
      simp only [List.length_append, AnyLiteral.length_text, Nat.add_assoc]
    | char hne hend hesc =>
      obtain ⟨c, t, hc⟩ := List.exists_cons_of_ne_nil hne
      have ht : t = w ++ (end_.text ++ r) := by rw [← hw, ← List.drop_drop, hc]; rfl
      subst ht
      refine ⟨c :: w, r, hc, .char (hc ▸ hend) (hc ▸ hesc) hunits, ?_⟩
      simp only [List.length_cons, Nat.add_assoc, Nat.add_comm 1]

/-- `view_parser` on a text: it takes a framed word with its delimiters. -/
theorem viewText_eq_some_iff (hsize : 0 < end_.size) {text v : List UInt8} :
    viewText begin_ end_ escape text = some (some (n, v)) ↔
      ∃ r, Framed end_.text escape.text begin_.text text v r ∧
        n = begin_.size + v.length + end_.size := by
  unfold viewText
  constructor
  · intro h
    split at h
    · rename_i hb
      obtain ⟨o, ho, hx⟩ := Option.map_eq_some_iff.1 h
      obtain ⟨x, rfl, hx⟩ := Option.map_eq_some_iff.1 hx
      obtain ⟨w, r, hw, hunits, rfl⟩ := units_of_scan ho x rfl
      have hbegin : text = begin_.text ++ text.drop begin_.size := by
        have := drop_eq_append (n := 0) (List.isPrefixOf_iff_prefix.1 hb)
        simpa using this
      simp only [List.drop_zero, Nat.zero_add] at hw hx
      rw [hw, List.take_left] at hx
      cases hx
      exact ⟨r, ⟨by rw [← hw]; exact hbegin, hunits⟩, (Nat.add_assoc _ _ _).symm⟩
    · cases h
  · rintro ⟨r, ⟨htext, hunits⟩, rfl⟩
    have hdrop : text.drop begin_.size = v ++ (end_.text ++ r) := by
      rw [htext, ← AnyLiteral.length_text begin_, List.drop_left]
    have hscan : loop (viewTextRound end_ escape (text.drop begin_.size)) 0 = _ :=
      scan_units hsize hunits rfl hdrop
    rw [if_pos (List.isPrefixOf_iff_prefix.2 (prefix_of_append_eq htext)), hscan, hdrop, Nat.zero_add,
      List.take_left]
    simp only [Option.map_some, Nat.add_assoc]

/-- On a valid state `view_parser` takes what it frames; it always leaves a state that is not null. -/
theorem run_viewParser (begin_ escape : AnyLiteral) (hsize : 0 < end_.size) (hv : st.Valid) :
    (viewParser mem begin_ end_ escape).run st = (viewText begin_ end_ escape (st.text mem)).map
      (Option.map fun x => (st.removePrefix x.1, x.2)) := by
  rw [(viewParser_reads begin_ end_ escape).run_eq hv]
  rcases h : viewText begin_ end_ escape (st.text mem) with _ | _ | ⟨n, v⟩
  · rfl
  · rfl
  · obtain ⟨r, -, rfl⟩ := (viewText_eq_some_iff hsize).1 h
    have hgood : (st.removePrefix (begin_.size + v.length + end_.size)).good = true := by
      rw [State.good_iff, State.removePrefix_begin]; omega
    exact settle_of_good hgood v

theorem run_viewParser_iff (hsize : 0 < end_.size) (hv : st.Valid) {v : List UInt8} :
    (viewParser mem begin_ end_ escape).run st = some (some (st', v)) ↔
      ∃ r, Framed end_.text escape.text begin_.text (st.text mem) v r ∧
        st' = st.removePrefix (begin_.size + v.length + end_.size) := by
  rw [run_viewParser begin_ escape hsize hv]
  constructor
  · intro h
    obtain ⟨o, ho, hx⟩ := Option.map_eq_some_iff.1 h
    obtain ⟨⟨n, w⟩, rfl, hx⟩ := Option.map_eq_some_iff.1 hx
    cases hx
    obtain ⟨r, hr, rfl⟩ := (viewText_eq_some_iff hsize).1 ho
    exact ⟨r, hr, rfl⟩
  · rintro ⟨r, hr, rfl⟩
    rw [(viewText_eq_some_iff hsize).2 ⟨r, hr, rfl⟩]; rfl

/-- The characters that a framed word and its delimiters take. -/
theorem text_eq_of_framed {text v r : List UInt8}
    (h : Framed end_.text escape.text begin_.text text v r) :
    begin_.size + v.length + end_.size + r.length = text.length ∧
      text.drop (begin_.size + v.length + end_.size) = r := by
  have htext : text = (begin_.text ++ v ++ end_.text) ++ r := by rw [h.text_eq]; simp
  have hlen : (begin_.text ++ v ++ end_.text).length = begin_.size + v.length + end_.size := by
    simp [Nat.add_assoc]
  refine ⟨by rw [htext, List.length_append, hlen], ?_⟩
  rw [htext, ← hlen, List.drop_left]

/-- `view_parser` succeeds exactly on a framed word, of which a text has at most one; its value is the
word as it stands and what it leaves is the rest. -/
theorem viewParser_frames (mem : Memory) (begin_ : AnyLiteral) {end_ escape : AnyLiteral}
    (hend : 0 < end_.size) (hescape : 0 < escape.size) (hv : st.Valid) :
    (∀ w r, Framed end_.text escape.text begin_.text (st.text mem) w r → ∃ st',
      (viewParser mem begin_ end_ escape).run st = some (some (st', w)) ∧ st'.Suffix st ∧
        st'.text mem = r) ∧
    (∀ st' w, (viewParser mem begin_ end_ escape).run st = some (some (st', w)) →
      Framed end_.text escape.text begin_.text (st.text mem) w (st'.text mem)) ∧
    ((∀ w r, ¬ Framed end_.text escape.text begin_.text (st.text mem) w r) →
      (viewParser mem begin_ end_ escape).run st = some none) ∧
    (∀ w w' r r', Framed end_.text escape.text begin_.text (st.text mem) w r →
      Framed end_.text escape.text begin_.text (st.text mem) w' r' → w = w' ∧ r = r') := by
  refine ⟨fun w r h => ?_, fun st' w h => ?_, fun h => ?_, fun w w' r r' h h' => h.unique h'⟩
  · obtain ⟨hlen, hdrop⟩ := text_eq_of_framed h
    have hle : begin_.size + w.length + end_.size ≤ (st.text mem).length := by omega
    refine ⟨_, (run_viewParser_iff hend hv).2 ⟨r, h, rfl⟩, State.suffix_removePrefix hle hv, ?_⟩
    rw [State.text_removePrefix, hdrop]
  · obtain ⟨r, hr, rfl⟩ := (run_viewParser_iff hend hv).1 h
    rw [State.text_removePrefix, (text_eq_of_framed hr).2]
    exact hr
  · have hsome : (viewText begin_ end_ escape (st.text mem)).isSome := isSome_viewText hescape _
    obtain ⟨o, ho⟩ := Option.isSome_iff_exists.1 hsome
    rw [run_viewParser begin_ escape hend hv, ho]
    rcases o with _ | ⟨n, w⟩
    · rfl
    · obtain ⟨r, hr, -⟩ := (viewText_eq_some_iff hend).1 ho
      exact absurd hr (h w r)

/-- `\>x` between `<` and `>`, where `\` is the escape. -/
theorem viewParser_frames_angle :
    let mem := Memory.ofText [ch '<', ch '\\', ch '>', ch 'x', ch '>', ch 'y']
    let p := viewParser mem (.charLiteral (ch '<')) (.charLiteral (ch '>')) (.charLiteral (ch '\\'))
    ∃ st', p.run (State.ofLength 6) = some (some (st', [ch '\\', ch '>', ch 'x'])) ∧
      st'.Suffix (State.ofLength 6) ∧ st'.text mem = [ch 'y'] := by
  intro mem p
  have hunits : Units [ch '>'] [ch '\\'] [ch '\\', ch '>', ch 'x'] [ch '>', ch 'y'] :=
    .escapeEnd (by decide) (.char (by decide) (by decide) (.nil _))
  have hend : 0 < (AnyLiteral.charLiteral (ch '>')).size := Nat.zero_lt_one
  have hescape : 0 < (AnyLiteral.charLiteral (ch '\\')).size := Nat.zero_lt_one
  have hv : (State.ofLength 6).Valid := by decide
  exact (viewParser_frames mem (.charLiteral (ch '<')) hend hescape hv).1 _ _ ⟨by decide, hunits⟩

/-! ### Termination -/

/-- At a character that no end delimiter starts at, an empty escape keeps the scan where it is. -/
theorem scan_diverges (hescape : escape.size = 0) (hne : view.drop n ≠ [])
    (hend : ¬ end_.text <+: view.drop n) : loop (viewTextRound end_ escape view) n = none := by
  have hnil : escape.text = [] := List.length_eq_zero_iff.1 (escape.length_text.trans hescape)
  refine loop_diverges (I := fun m => m = n) (fun m hm => ⟨n, ?_, rfl⟩) rfl
  subst hm
  have hesc : escape.text <+: view.drop m := by rw [hnil]; exact List.nil_prefix
  have hround := viewTextRound_escape hne hend hesc (by rw [hescape, Nat.add_zero]; exact hend)
  rwa [hescape, Nat.add_zero] at hround

theorem isSome_scan_end (hend : end_.text <+: view) :
    (loop (viewTextRound end_ escape view) 0).isSome := by
  by_cases hne : view = []
  · rw [loop_done (viewTextRound_stop (show view.drop 0 = [] from hne))]; rfl
  · rw [loop_done (viewTextRound_end (show view.drop 0 ≠ [] from hne) hend)]; rfl

/-- `view_parser` ends unless the escape literal is empty and the view starts with something else than
its end. -/
theorem viewParser_ends_iff (mem : Memory) (begin_ end_ escape : AnyLiteral) (hv : st.Valid) :
    ((viewParser mem begin_ end_ escape).parse st).isSome ↔
      0 < escape.size ∨ ¬ begin_.text <+: st.text mem ∨ st.text mem = begin_.text ∨
        begin_.text ++ end_.text <+: st.text mem := by
  have hparse : ((viewParser mem begin_ end_ escape).parse st).isSome ↔
      (viewText begin_ end_ escape (st.text mem)).isSome := by
    rw [(viewParser_reads begin_ end_ escape).parse_eq st hv]
    rcases viewText begin_ end_ escape (st.text mem) with _ | _ | x <;> simp [ofOutcome]
  rw [hparse]
  constructor
  · intro h
    -- an empty escape matches everywhere and takes nothing
    by_contra hcond
    simp only [not_or, not_not, Nat.not_lt, Nat.le_zero] at hcond
    obtain ⟨hescape, ⟨t, ht⟩, hne, hend⟩ := hcond
    rw [← ht] at h hne hend
    rw [List.prefix_append_right_inj] at hend
    have hdrop : (begin_.text ++ t).drop begin_.size = t := by
      rw [← AnyLiteral.length_text begin_, List.drop_left]
    have hloop : loop (viewTextRound end_ escape t) 0 = none :=
      scan_diverges hescape (by intro h0; exact hne (by simpa using h0)) hend
    rw [viewText, if_pos (List.isPrefixOf_iff_prefix.2 (List.prefix_append _ _)), hdrop, hloop] at h
    cases h
  · intro h
    by_cases hbegin : begin_.text <+: st.text mem
    · obtain ⟨t, ht⟩ := hbegin
      have hdrop : (st.text mem).drop begin_.size = t := by
        rw [← ht, ← AnyLiteral.length_text begin_, List.drop_left]
      rw [viewText, if_pos (List.isPrefixOf_iff_prefix.2 ⟨t, ht⟩), hdrop, Option.isSome_map]
      rcases h with hescape | hbegin | hempty | hend
      · exact isSome_scan hescape 0
      · exact absurd ⟨t, ht⟩ hbegin
      · obtain rfl : t = [] := by simpa [hempty] using ht
        rw [loop_done (viewTextRound_stop rfl)]; rfl
      · rw [← ht, List.prefix_append_right_inj] at hend
        exact isSome_scan_end hend
    · rw [viewText, if_neg (mt List.isPrefixOf_iff_prefix.1 hbegin)]; rfl

/-- An end delimiter is found at once, whatever the escape is; and in `"a\"b"`, where `\` is the escape,
the scan ends after three rounds that pass `a`, the escaped quote and `b`. -/
theorem viewParser_ends_quotes :
    ((viewParser (Memory.ofText [ch '"', ch '"']) (.charLiteral (ch '"')) (.charLiteral (ch '"'))
      .emptyLiteral).parse (State.ofLength 2)).isSome ∧
    let p := viewParser (Memory.ofText [ch '"', ch 'a', ch '\\', ch '"', ch 'b', ch '"'])
      (.charLiteral (ch '"')) (.charLiteral (ch '"')) (.charLiteral (ch '\\'))
    (p.parse (State.ofLength 6)).isSome ∧
      p.run (State.ofLength 6) = some (some (⟨7, 7⟩, [ch 'a', ch '\\', ch '"', ch 'b'])) := by
  refine ⟨(viewParser_ends_iff _ _ _ _ (by decide)).2 (.inr (.inr (.inr (by decide)))),
    (viewParser_ends_iff _ _ _ _ (by decide)).2 (.inl Nat.zero_lt_one), ?_⟩
  have hend : 0 < (AnyLiteral.charLiteral (ch '"')).size := Nat.zero_lt_one
  have hunits : Units [ch '"'] [ch '\\'] [ch 'a', ch '\\', ch '"', ch 'b'] [ch '"'] :=
    .char (by decide) (by decide) (.escapeEnd (by decide) (.char (by decide) (by decide) (.nil _)))
  exact (run_viewParser_iff hend (by decide)).2 ⟨[], ⟨by decide, hunits⟩, rfl⟩

/-- `"a` with no escape: the loop never ends. -/
theorem viewParser_no_escape_diverges :
    (viewParser (Memory.ofText [ch '"', ch 'a']) (.charLiteral (ch '"')) (.charLiteral (ch '"'))
      .emptyLiteral).parse (State.ofLength 2) = none := by
  have hloop : loop (viewTextRound (.charLiteral (ch '"')) .emptyLiteral [ch 'a']) 0 = none :=
    scan_diverges rfl (by decide) (by decide)
  have htext : viewText (.charLiteral (ch '"')) (.charLiteral (ch '"')) .emptyLiteral [ch '"', ch 'a'] =
      (loop (viewTextRound (.charLiteral (ch '"')) .emptyLiteral [ch 'a']) 0).map
        (Option.map fun x => (1 + x.1, x.2)) := rfl
  rw [(viewParser_reads _ _ _).parse_eq _ (by decide)]
  show (viewText _ _ _ [ch '"', ch 'a']).bind _ = none
  rw [htext, hloop]; rfl

end Noam
