import Noam.Views

/-!
# What `parse_string` decodes

A quoted string is a sequence of bytes and two-character escapes between quotes. `parse_string` steps
through it byte by byte or escape by escape, and its loop leaves out the last byte of the view, which
has to be the closing quote. There is one way to step over that byte: an escape that ends the view. The
byte behind the view then decides, and everything below is about what happens on the other views.
-/

namespace Noam
open GetResult ValueType Attempt Loop Framing

variable {mem mem' : Memory} {st st' : State} {e s r t body str : List UInt8} {c v : UInt8} {i : Nat}

/-! ### Encoded strings -/

/-- `e` is the string `s` with some bytes replaced by their escapes. -/
inductive Encodes : List UInt8 → List UInt8 → Prop
  | nil : Encodes [] []
  | plain {c : UInt8} {e s : List UInt8} (hquote : c ≠ ch '"') (hbackslash : c ≠ ch '\\')
      (h : Encodes e s) : Encodes (c :: e) (c :: s)
  | code {c v : UInt8} {e s : List UInt8} (hcode : escapeCode c = some v) (h : Encodes e s) :
      Encodes (ch '\\' :: c :: e) (v :: s)

theorem Encodes.append {e' s' : List UInt8} (h : Encodes e s) (h' : Encodes e' s') :
    Encodes (e ++ e') (s ++ s') := by
  induction h with
  | nil => exact h'
  | plain hquote hbackslash _ ih => exact ih.plain hquote hbackslash
  | code hcode _ ih => exact ih.code hcode

/-- What can follow an opening quote: a closed string, an unknown escape, no closing quote, or an escape
at the very end. -/
inductive StringBody : List UInt8 → Prop
  | closed {e s r : List UInt8} (h : Encodes e s) : StringBody (e ++ ch '"' :: r)
  | unknown {e s r : List UInt8} {c : UInt8} (h : Encodes e s) (hcode : escapeCode c = none) :
      StringBody (e ++ ch '\\' :: c :: r)
  | unclosed {e s : List UInt8} {c : UInt8} (h : Encodes e s) (hc : c ≠ ch '"') :
      StringBody (e ++ [c])
  | escapeAtEnd {e s : List UInt8} {c v : UInt8} (h : Encodes e s) (hcode : escapeCode c = some v) :
      StringBody (e ++ [ch '\\', c])

theorem StringBody.plain (hquote : c ≠ ch '"') (hbackslash : c ≠ ch '\\') (h : StringBody body) :
    StringBody (c :: body) := by
  cases h with
  | closed h => exact .closed (h.plain hquote hbackslash)
  | unknown h hcode => exact .unknown (h.plain hquote hbackslash) hcode
  | unclosed h hc => exact .unclosed (h.plain hquote hbackslash) hc
  | escapeAtEnd h hcode => exact .escapeAtEnd (h.plain hquote hbackslash) hcode

theorem StringBody.code (hcode : escapeCode c = some v) (h : StringBody body) :
    StringBody (ch '\\' :: c :: body) := by
  cases h with
  | closed h => exact .closed (h.code hcode)
  | unknown h hc => exact .unknown (h.code hcode) hc
  | unclosed h hc => exact .unclosed (h.code hcode) hc
  | escapeAtEnd h hc => exact .escapeAtEnd (h.code hcode) hc

theorem stringBody : (body : List UInt8) → body ≠ [] → StringBody body
  | [], hne => absurd rfl hne
  | [c], _ => by
    by_cases hc : c = ch '"'
    · subst hc
      exact .closed .nil
    · exact .unclosed .nil hc
  | c :: d :: t, _ => by
    by_cases hquote : c = ch '"'
    · subst hquote
      exact .closed .nil
    by_cases hbackslash : c = ch '\\'
    · subst hbackslash
      rcases hd : escapeCode d with _ | v
      · exact .unknown .nil hd
      · by_cases ht : t = []
        · subst ht
          exact .escapeAtEnd .nil hd
        · exact (stringBody t ht).code hd
    · exact (stringBody (d :: t) (List.cons_ne_nil d t)).plain hquote hbackslash

/-! ### The loop -/

theorem get_of_drop (h : (st.text mem).drop i = c :: t) : st.get mem i = c := by
  have hlen := congrArg List.length h
  rw [List.length_drop, List.length_cons] at hlen
  have hi : i < (st.text mem).length := by omega
  have hget := State.get_eq hi
  have hhead : (st.text mem)[i]? = ((st.text mem).drop i)[0]? := by rw [List.getElem?_drop, Nat.add_zero]
  rw [hhead, h] at hget
  exact (Option.some.inj hget).symm

/-- The loop leaves out the last byte of the view. -/
theorem toSizeT_size_sub_one (mem : Memory) (hst : st.IsView) (h : st.size ≥ 2) :
    toSizeT (st.size - 1) = (st.text mem).length - 1 := by
  have hsize := State.size_eq mem hst.valid
  have hend := hst.end_lt
  have hlen : (st.text mem).length = st._end - st._begin := State.length_text
  rw [toSizeT]
  omega

section
variable {count : Nat} (hcount : count = (st.text mem).length - 1)
include hcount

theorem lt_count_iff : i < count ↔ i + 1 < (st.text mem).length := by omega

theorem loop_plain (h : (st.text mem).drop i = c :: t) (ht : t ≠ []) (hquote : c ≠ ch '"')
    (hbackslash : c ≠ ch '\\') : loop (stringRound mem st count) (i, str) =
      loop (stringRound mem st count) (i + 1, str ++ [c]) := by
  have hlen := congrArg List.length h
  have hpos := List.length_pos_iff.2 ht
  rw [List.length_drop, List.length_cons] at hlen
  refine loop_next ?_
  unfold stringRound
  simp only [if_pos ((lt_count_iff hcount).2 (show i + 1 < _ by omega)), get_of_drop h,
    if_neg hbackslash, if_neg hquote]
  rfl

theorem loop_code (h : (st.text mem).drop i = ch '\\' :: c :: t) (hcode : escapeCode c = some v) :
    loop (stringRound mem st count) (i, str) =
      loop (stringRound mem st count) (i + 2, str ++ [v]) := by
  have hlen := congrArg List.length h
  rw [List.length_drop, List.length_cons, List.length_cons] at hlen
  have hnext : (st.text mem).drop (i + 1) = c :: t := by rw [← List.drop_drop, h]; rfl
  refine loop_next ?_
  unfold stringRound
  simp only [if_pos ((lt_count_iff hcount).2 (show i + 1 < _ by omega)), get_of_drop h,
    get_of_drop hnext, hcode]
  rfl

theorem loop_unknown (h : (st.text mem).drop i = ch '\\' :: c :: t) (hcode : escapeCode c = none) :
    loop (stringRound mem st count) (i, str) = some none := by
  have hlen := congrArg List.length h
  rw [List.length_drop, List.length_cons, List.length_cons] at hlen
  have hnext : (st.text mem).drop (i + 1) = c :: t := by rw [← List.drop_drop, h]; rfl
  refine loop_done ?_
  unfold stringRound
  simp only [if_pos ((lt_count_iff hcount).2 (show i + 1 < _ by omega)), get_of_drop h,
    get_of_drop hnext, hcode]
  rfl

/-- The loop ends where at most one byte is left. -/
theorem loop_last (h : (st.text mem).length ≤ i + 1) :
    loop (stringRound mem st count) (i, str) = some (some (i, str)) := by
  refine loop_done ?_
  unfold stringRound
  exact if_neg (by rw [lt_count_iff hcount]; omega)

theorem loop_quote (h : (st.text mem).drop i = ch '"' :: t) :
    loop (stringRound mem st count) (i, str) = some (some (i, str)) := by
  by_cases hlt : i < count
  · refine loop_done ?_
    unfold stringRound
    simp only [if_pos hlt, get_of_drop h]
    rfl
  · exact loop_last hcount (by rw [lt_count_iff hcount] at hlt; omega)

/-- The loop decodes an encoded string that something follows. -/
theorem loop_encodes (he : Encodes e s) (h : (st.text mem).drop i = e ++ t) (ht : t ≠ []) :
    loop (stringRound mem st count) (i, str) =
      loop (stringRound mem st count) (i + e.length, str ++ s) := by
  induction he generalizing i str with
  | nil => rw [List.append_nil]; rfl
  | @plain c e s hquote hbackslash he ih =>
    have hnext : (st.text mem).drop (i + 1) = e ++ t := by rw [← List.drop_drop, h]; rfl
    rw [loop_plain hcount h (by simp [ht]) hquote hbackslash, ih hnext, List.length_cons,
      List.append_assoc, Nat.add_assoc, Nat.add_comm 1]
    rfl
  | @code c v e s hcode he ih =>
    have hnext : (st.text mem).drop (i + 2) = e ++ t := by rw [← List.drop_drop, h]; rfl
    rw [loop_code hcount h hcode, ih hnext, List.length_cons, List.length_cons, List.append_assoc,
      Nat.add_assoc, Nat.add_comm 2]
    rfl

end

/-! ### The outcome -/

/-- `parse_string` after its loop. -/
theorem run_stringParser (h : st.size ≥ 2 ∧ st.get mem 0 = ch '"')
    (hl : loop (stringRound mem st (toSizeT (st.size - 1))) (1, []) = some (some (i, str))) :
    (stringParser mem).run st =
      some (if st.get mem i = ch '"' then some (st.removePrefix (i + 1), str) else none) := by
  have hgood : (st.removePrefix (i + 1)).good = true := by
    rw [State.good_iff, State.removePrefix_begin]; omega
  have hrun : (stringParser mem).run st =
      (if st.get mem i = ch '"' then some (GetResult.of (V := string) (st.removePrefix (i + 1)) str)
        else some failed : Option (GetResult string false)).map outcome := by
    unfold Parser.run stringParser
    simp only [if_pos h, hl]
    rfl
  rw [hrun]
  split
  · rw [Option.map_some, outcome_of_good hgood]
  · rfl

theorem run_stringParser_unknown (h : st.size ≥ 2 ∧ st.get mem 0 = ch '"')
    (hl : loop (stringRound mem st (toSizeT (st.size - 1))) (1, []) = some none) :
    (stringParser mem).run st = some none := by
  unfold Parser.run stringParser
  simp only [if_pos h, hl]
  rfl

theorem run_stringParser_skip (h : ¬ (st.size ≥ 2 ∧ st.get mem 0 = ch '"')) :
    (stringParser mem).run st = some none := by
  unfold Parser.run stringParser
  simp only [if_neg h]
  rfl

section
variable (hst : st.IsView)
include hst

theorem starts_iff : (st.size ≥ 2 ∧ st.get mem 0 = ch '"') ↔
    ∃ body, body ≠ [] ∧ st.text mem = ch '"' :: body := by
  have hsize := State.size_eq mem hst.valid
  constructor
  · rintro ⟨hle, hquote⟩
    rcases htext : st.text mem with _ | ⟨c, body⟩
    · rw [hsize, htext, List.length_nil] at hle; omega
    · have hc : st.get mem 0 = c := get_of_drop (t := body) (by rw [htext]; rfl)
      refine ⟨body, fun hnil => ?_, by rw [← hc, hquote]⟩
      rw [hsize, htext, hnil, List.length_singleton] at hle
      omega
  · rintro ⟨body, hne, htext⟩
    have hpos := List.length_pos_iff.2 hne
    refine ⟨?_, get_of_drop (t := body) (by rw [htext]; rfl)⟩
    rw [hsize, htext, List.length_cons]
    omega

variable (htext : st.text mem = ch '"' :: body)
include htext

theorem starts_of_text (hne : body ≠ []) : st.size ≥ 2 ∧ st.get mem 0 = ch '"' :=
  (starts_iff hst).2 ⟨body, hne, htext⟩

theorem count_of_text (hne : body ≠ []) :
    toSizeT (st.size - 1) = (st.text mem).length - 1 :=
  toSizeT_size_sub_one mem hst (starts_of_text hst htext hne).1

/-- The loop decodes what stands in front of `t`. -/
theorem loop_body (he : Encodes e s) (hbody : body = e ++ t) (ht : t ≠ []) :
    loop (stringRound mem st (toSizeT (st.size - 1))) (1, []) =
      loop (stringRound mem st (toSizeT (st.size - 1))) (1 + e.length, s) :=
  loop_encodes (count_of_text hst htext (by simp [hbody, ht])) he (by rw [htext, ← hbody]; rfl) ht

omit hst in
theorem drop_body (hbody : body = e ++ t) : (st.text mem).drop (1 + e.length) = t := by
  rw [← List.drop_drop, htext, hbody]
  exact List.drop_left

theorem run_closed (he : Encodes e s) (hbody : body = e ++ ch '"' :: r) :
    (stringParser mem).run st = some (some (st.removePrefix (e.length + 2), s)) := by
  have hne : body ≠ [] := by simp [hbody]
  have hdrop := drop_body htext hbody
  have hl := (loop_body hst htext he hbody (List.cons_ne_nil _ _)).trans
    (loop_quote (count_of_text hst htext hne) hdrop)
  rw [run_stringParser (starts_of_text hst htext hne) hl, if_pos (get_of_drop hdrop), Nat.add_comm 1]

theorem run_unknown (he : Encodes e s) (hbody : body = e ++ ch '\\' :: c :: r)
    (hcode : escapeCode c = none) : (stringParser mem).run st = some none := by
  have hne : body ≠ [] := by simp [hbody]
  have hl := (loop_body hst htext he hbody (List.cons_ne_nil _ _)).trans
    (loop_unknown (count_of_text hst htext hne) (drop_body htext hbody) hcode)
  exact run_stringParser_unknown (starts_of_text hst htext hne) hl

/-- The loop stops at the last byte of the view. -/
theorem loop_unclosed (he : Encodes e s) (hbody : body = e ++ [c]) :
    loop (stringRound mem st (toSizeT (st.size - 1))) (1, []) = some (some (1 + e.length, s)) := by
  have hlen := congrArg List.length (drop_body htext hbody)
  rw [List.length_drop, List.length_singleton] at hlen
  exact (loop_body hst htext he hbody (List.cons_ne_nil _ _)).trans
    (loop_last (count_of_text hst htext (by simp [hbody])) (by omega))

theorem run_unclosed (he : Encodes e s) (hbody : body = e ++ [c]) (hc : c ≠ ch '"') :
    (stringParser mem).run st = some none := by
  rw [run_stringParser (starts_of_text hst htext (by simp [hbody])) (loop_unclosed hst htext he hbody),
    if_neg (by rw [get_of_drop (drop_body htext hbody)]; exact hc)]

/-- The loop steps over the last byte of the view when an escape ends there. -/
theorem loop_escapeAtEnd (he : Encodes e s) (hbody : body = e ++ [ch '\\', c])
    (hcode : escapeCode c = some v) :
    loop (stringRound mem st (toSizeT (st.size - 1))) (1, []) =
      some (some ((st.text mem).length, s ++ [v])) := by
  have hcount := count_of_text hst htext (by simp [hbody])
  have hlen : (st.text mem).length = 1 + e.length + 2 := by
    rw [htext, hbody, List.length_cons, List.length_append, Nat.add_comm 1, Nat.add_right_comm]; rfl
  rw [loop_body hst htext he hbody (List.cons_ne_nil _ _),
    loop_code hcount (drop_body htext hbody) hcode, loop_last hcount (by omega), hlen]

end

/-- A success that leaves a suffix has taken an encoded string and its quotes. -/
theorem closed_of_run (hst : st.IsView) (h : (stringParser mem).run st = some (some (st', s)))
    (hs : st'.Suffix st) : ∃ e r, Encodes e s ∧ st.text mem = ch '"' :: (e ++ ch '"' :: r) ∧
      st' = st.removePrefix (e.length + 2) := by
  by_cases hstart : st.size ≥ 2 ∧ st.get mem 0 = ch '"'
  · obtain ⟨body, hne, htext⟩ := (starts_iff hst).1 hstart
    cases stringBody body hne with
    | closed he =>
      rw [run_closed hst htext he rfl] at h
      cases h
      exact ⟨_, _, he, htext, rfl⟩
    | unknown he hcode => rw [run_unknown hst htext he rfl hcode] at h; cases h
    | unclosed he hc => rw [run_unclosed hst htext he rfl hc] at h; cases h
    | escapeAtEnd he hcode =>
      rw [run_stringParser hstart (loop_escapeAtEnd hst htext he rfl hcode)] at h
      split at h <;> cases h
      have hend := hs.end_eq
      have hle := hs.valid
      simp only [State.Valid, State.removePrefix_begin, State.removePrefix_end, State.length_text] at hle
      omega
  · rw [run_stringParser_skip hstart] at h; cases h

theorem text_after_closed (h : st.text mem = ch '"' :: (e ++ ch '"' :: r)) :
    (st.removePrefix (e.length + 2)).text mem = r ∧ e.length + 2 ≤ (st.text mem).length := by
  have hsplit : ch '"' :: (e ++ ch '"' :: r) = (ch '"' :: (e ++ [ch '"'])) ++ r := by simp
  have hlen : (ch '"' :: (e ++ [ch '"'])).length = e.length + 2 := by simp
  rw [State.text_removePrefix, h, hsplit, ← hlen, List.drop_left, List.length_append]
  exact ⟨rfl, Nat.le_add_right _ _⟩

/-! ### What is read -/

/-- The indices that a round of the loop reads. -/
def stringRoundReads (mem : Memory) (st : State) (count : Nat) (x : Nat × List UInt8) : List Nat :=
  if x.1 < count then
    if st.get mem x.1 = ch '\\' then [x.1, x.1 + 1] else [x.1]
  else []

/-- The indices that `parse_string` reads: the first one, those of its loop and the one that the loop
ends at. -/
def stringReads (mem : Memory) (st : State) : Option (List Nat) :=
  if st.size ≥ 2 then
    if st.get mem 0 = ch '"' then do
      let count := toSizeT (st.size - 1)
      let (o, reads) ← logged (stringRound mem st count) (stringRoundReads mem st count) (1, [])
      return 0 :: (reads ++ o.toList.map Prod.fst)
    else return [0]
  else return []

theorem map_fst_reads {count : Nat} {x : Nat × List UInt8} :
    (logged (stringRound mem st count) (stringRoundReads mem st count) x).map Prod.fst =
      loop (stringRound mem st count) x := map_fst_logged

/-- `parse_string` reads inside of its view, its outcome does not depend on what is outside of it, and
it leaves a part of it. -/
structure StaysInView (mem : Memory) (st : State) : Prop where
  reads : ∃ l, stringReads mem st = some l ∧ ∀ i ∈ l, (i : Int) < st.size
  outside : ∀ mem' : Memory, st.text mem' = st.text mem →
    (stringParser mem').parse st = (stringParser mem).parse st
  suffix : ∀ st' s, (stringParser mem).run st = some (some (st', s)) → st'.Suffix st

theorem stringRound_congr {count : Nat} {x : Nat × List UInt8}
    (h : ∀ i ∈ stringRoundReads mem st count x, st.get mem' i = st.get mem i) :
    stringRound mem' st count x = stringRound mem st count x := by
  obtain ⟨i, str⟩ := x
  unfold stringRoundReads at h
  unfold stringRound
  simp only at h ⊢
  by_cases hlt : i < count
  · rw [if_pos hlt] at h
    rw [if_pos hlt, if_pos hlt]
    by_cases hbackslash : st.get mem i = ch '\\'
    · rw [if_pos hbackslash] at h
      rw [h i (by simp), h (i + 1) (by simp)]
    · rw [if_neg hbackslash] at h
      rw [h i (by simp), if_neg hbackslash, if_neg hbackslash]
  · rw [if_neg hlt, if_neg hlt]

theorem stringReads_eq (h : st.size ≥ 2 ∧ st.get mem 0 = ch '"') :
    stringReads mem st = (logged (stringRound mem st (toSizeT (st.size - 1)))
      (stringRoundReads mem st (toSizeT (st.size - 1))) (1, [])).map
        fun x => 0 :: (x.2 ++ x.1.toList.map Prod.fst) := by
  unfold stringReads
  rw [if_pos h.1, if_pos h.2, Option.map_eq_bind]
  rfl

/-- `parse_string` does the same in a memory that agrees on what it reads. -/
theorem parse_congr_of_reads {l : List Nat} (hl : stringReads mem st = some l)
    (h : ∀ i ∈ l, st.get mem' i = st.get mem i) :
    (stringParser mem').parse st = (stringParser mem).parse st := by
  unfold stringParser
  simp only
  by_cases hstart : st.size ≥ 2 ∧ st.get mem 0 = ch '"'
  · rw [stringReads_eq hstart] at hl
    -- it reads the quote, what the rounds of the loop read, and the byte at which the loop stops
    obtain ⟨⟨o, reads⟩, hlog, rfl⟩ := Option.map_eq_some_iff.1 hl
    have hfirst : st.get mem' 0 = st.get mem 0 := h 0 List.mem_cons_self
    have hreads : ∀ i ∈ reads, st.get mem' i = st.get mem i := fun i hi => h i (by simp [hi])
    have hlast : ∀ i str, o = some (i, str) → st.get mem' i = st.get mem i := by
      rintro i str rfl
      exact h i (by simp)
    have hloop : loop (stringRound mem st (toSizeT (st.size - 1))) (1, []) = some o := by
      rw [← map_fst_reads, hlog]; rfl
    have hloop' : loop (stringRound mem' st (toSizeT (st.size - 1))) (1, []) = some o :=
      loop_eq_of_logged (fun x hx => stringRound_congr hx) hlog hreads
    rw [if_pos hstart, if_pos (hfirst ▸ hstart), hloop', hloop]
    rcases o with _ | ⟨i, str⟩
    · rfl
    · show (if _ then _ else _) = (if _ then _ else _)
      rw [hlast i str rfl]
  · by_cases hsize : st.size ≥ 2
    · have hquote : st.get mem 0 ≠ ch '"' := fun hq => hstart ⟨hsize, hq⟩
      obtain rfl : [0] = l := by
        unfold stringReads at hl
        rw [if_pos hsize, if_neg hquote] at hl
        exact Option.some.inj hl
      rw [if_neg hstart, if_neg (by rw [h 0 List.mem_cons_self]; exact hstart)]
    · rw [if_neg hstart, if_neg fun h => hsize h.1]

/-- The loop reads inside of the view. -/
theorem loop_reads_lt {count : Nat} (hcount : count = (st.text mem).length - 1)
    {o : Option (Nat × List UInt8)} {reads : List Nat}
    (h : logged (stringRound mem st count) (stringRoundReads mem st count) (1, []) = some (o, reads)) :
    ∀ i ∈ reads, i < (st.text mem).length := by
  refine forall_mem_logged (I := fun _ => True) (fun x _ i hi => ?_) (fun _ _ _ _ => trivial) trivial h
  unfold stringRoundReads at hi
  split at hi
  · rename_i hlt
    rw [lt_count_iff hcount] at hlt
    split at hi
    · rcases List.mem_pair.1 hi with rfl | rfl <;> omega
    · rw [List.mem_singleton.1 hi]; omega
  · cases hi

theorem get_congr (h : st.text mem' = st.text mem) (hi : i < (st.text mem).length) :
    st.get mem' i = st.get mem i := by
  have hget := State.get_eq (h ▸ hi : i < (st.text mem').length)
  rw [h, State.get_eq hi] at hget
  exact (Option.some.inj hget).symm

/-- The loop ends inside of the view when no escape ends it. -/
theorem loop_lt (hst : st.IsView) (hne : body ≠ []) (htext : st.text mem = ch '"' :: body)
    (hend : ¬ ∃ e s c v, Encodes e s ∧ escapeCode c = some v ∧ body = e ++ [ch '\\', c]) :
    ∃ o, loop (stringRound mem st (toSizeT (st.size - 1))) (1, []) = some o ∧
      ∀ x, o = some x → x.1 < (st.text mem).length := by
  have hcount := count_of_text hst htext hne
  -- what stands behind the quote decides where the loop stops
  cases stringBody body hne with
  | @closed e s r he =>
    have hlen := (text_after_closed htext).2
    refine ⟨_, (loop_body hst htext he rfl (List.cons_ne_nil _ _)).trans
      (loop_quote hcount (drop_body htext rfl)), ?_⟩
    rintro x ⟨rfl⟩
    show 1 + e.length < _
    omega
  | unknown he hcode =>
    refine ⟨none, (loop_body hst htext he rfl (List.cons_ne_nil _ _)).trans
      (loop_unknown hcount (drop_body htext rfl) hcode), fun x hx => by cases hx⟩
  | @unclosed e s c he hc =>
    refine ⟨_, loop_unclosed hst htext he rfl, ?_⟩
    rintro x ⟨rfl⟩
    rw [htext]
    simp [Nat.add_comm 1]
  | escapeAtEnd he hcode => exact absurd ⟨_, _, _, _, he, hcode, rfl⟩ hend

theorem exists_reads_lt (hst : st.IsView)
    (hend : ¬ ∃ e s c v, Encodes e s ∧ escapeCode c = some v ∧
      st.text mem = ch '"' :: (e ++ [ch '\\', c])) :
    ∃ l, stringReads mem st = some l ∧ ∀ i ∈ l, i < (st.text mem).length := by
  by_cases hstart : st.size ≥ 2 ∧ st.get mem 0 = ch '"'
  · obtain ⟨body, hne, htext⟩ := (starts_iff hst).1 hstart
    obtain ⟨o, ho, hlt⟩ := loop_lt hst hne htext fun ⟨e, s, c, v, he, hcode, hbody⟩ =>
      hend ⟨e, s, c, v, he, hcode, by rw [htext, hbody]⟩
    rw [← map_fst_reads] at ho
    obtain ⟨⟨_, reads⟩, hlog, rfl⟩ := Option.map_eq_some_iff.1 ho
    rw [stringReads_eq hstart, hlog]
    refine ⟨_, rfl, fun i hi => ?_⟩
    -- the first byte, those of the loop, and the one behind it
    rcases List.mem_cons.1 hi with rfl | hi
    · rw [htext]; exact Nat.succ_pos _
    rcases List.mem_append.1 hi with hi | hi
    · exact loop_reads_lt (count_of_text hst htext hne) hlog i hi
    · obtain ⟨x, hx, rfl⟩ := List.mem_map.1 hi
      exact hlt x (Option.mem_toList.1 hx)
  · by_cases hsize : st.size ≥ 2
    · have hquote : st.get mem 0 ≠ ch '"' := fun hq => hstart ⟨hsize, hq⟩
      refine ⟨[0], by unfold stringReads; rw [if_pos hsize, if_neg hquote]; rfl, fun i hi => ?_⟩
      rw [List.mem_singleton.1 hi]
      rw [State.size_eq mem hst.valid] at hsize
      omega
    · exact ⟨[], by unfold stringReads; rw [if_neg hsize]; rfl, fun i hi => by cases hi⟩

theorem suffix_of_run (hst : st.IsView)
    (hend : ¬ ∃ e s c v, Encodes e s ∧ escapeCode c = some v ∧
      st.text mem = ch '"' :: (e ++ [ch '\\', c]))
    (h : (stringParser mem).run st = some (some (st', s))) : st'.Suffix st := by
  by_cases hstart : st.size ≥ 2 ∧ st.get mem 0 = ch '"'
  · obtain ⟨body, hne, htext⟩ := (starts_iff hst).1 hstart
    obtain ⟨o, ho, hlt⟩ := loop_lt hst hne htext fun ⟨e, s, c, v, he, hcode, hbody⟩ =>
      hend ⟨e, s, c, v, he, hcode, by rw [htext, hbody]⟩
    rcases o with _ | ⟨i, str⟩
    · rw [run_stringParser_unknown hstart ho] at h; cases h
    · rw [run_stringParser hstart ho] at h
      split at h <;> cases h
      exact State.suffix_removePrefix (hlt _ rfl) hst.valid
  · rw [run_stringParser_skip hstart] at h; cases h

/-- `parse_string` stays inside of its view unless the view is an opening quote, an encoded string and
one more escape. -/
theorem stringParser_stays_iff (mem : Memory) (hst : st.IsView) : StaysInView mem st ↔
    ¬ ∃ e s c v, Encodes e s ∧ escapeCode c = some v ∧
      st.text mem = ch '"' :: (e ++ [ch '\\', c]) := by
  constructor
  · rintro ⟨⟨l, hl, hlt⟩, -, -⟩ ⟨e, s, c, v, he, hcode, htext⟩
    have hloop := loop_escapeAtEnd hst htext he rfl hcode
    rw [← map_fst_reads] at hloop
    obtain ⟨⟨_, reads⟩, hlog, rfl⟩ := Option.map_eq_some_iff.1 hloop
    rw [stringReads_eq (starts_of_text hst htext (by simp)), hlog] at hl
    cases hl
    have hout := hlt (st.text mem).length (by simp)
    rw [State.size_eq mem hst.valid] at hout
    omega
  · intro hend
    obtain ⟨l, hl, hlt⟩ := exists_reads_lt hst hend
    refine ⟨⟨l, hl, fun i hi => ?_⟩, fun mem' h => ?_, fun st' s h => ?_⟩
    · rw [State.size_eq mem hst.valid]
      exact_mod_cast hlt i hi
    · exact parse_congr_of_reads hl fun i hi => get_congr h (hlt i hi)
    · exact suffix_of_run hst hend h

/-- A string whose quotes are both there. -/
theorem stringParser_stays_quotes :
    StaysInView (Memory.ofText [ch '"', ch 'a', ch '"', ch 'b']) (State.ofLength 3) := by
  refine (stringParser_stays_iff _ ⟨by decide, by decide⟩).2 ?_
  rintro ⟨e, s, c, v, -, -, h⟩
  replace h : [ch '"', ch 'a', ch '"'] = ch '"' :: (e ++ [ch '\\', c]) := h
  cases e with
  | nil => cases h
  | cons d e => exact absurd (congrArg List.length h) (by simp)

/-- `"\n`, where a quote is the first byte behind the view. -/
theorem stringParser_reads_behind :
    (State.ofLength 3).IsView ∧
      ¬ StaysInView (Memory.ofText [ch '"', ch '\\', ch 'n', ch '"']) (State.ofLength 3) := by
  have hst : (State.ofLength 3).IsView := ⟨by decide, by decide⟩
  refine ⟨hst, fun ⟨_, _, hsuffix⟩ => ?_⟩
  have htext : (State.ofLength 3).text (Memory.ofText [ch '"', ch '\\', ch 'n', ch '"']) =
      ch '"' :: ([] ++ [ch '\\', ch 'n']) := rfl
  have hrun := run_stringParser (starts_of_text hst htext (by simp))
    (loop_escapeAtEnd hst htext .nil rfl rfl)
  have hle : (5 : Nat) ≤ 4 := (hsuffix _ _ hrun).valid
  exact absurd hle (by decide)

end Noam
