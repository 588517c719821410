import Noam.Strings

/-!
# Quoted strings

`parse_string` reads what quoting a string writes, for every choice of what is escaped, and nothing
else. `parse_string_view` takes the same characters, except where a string ends in an escaped
backslash: it reads the second backslash as an escape of the closing quote.
-/

namespace Noam
open GetResult ValueType Attempt Loop Framing

variable {mem : Memory} {st st' : State} {e s r t : List UInt8} {c v : UInt8}

/-! ### `parse_string_view` on the same strings -/

/-- A raw view with its escapes decoded as `parse_string` decodes them. -/
def unescape : List UInt8 → Option (List UInt8)
  | [] => some []
  | [c] => if c = ch '\\' then none else some [c]
  | c :: d :: t =>
    if c = ch '\\' then (escapeCode d).bind fun v => (unescape t).map (v :: ·)
    else (unescape (d :: t)).map (c :: ·)

/-- Where `parse_string` succeeds and leaves a suffix, `parse_string_view` leaves the same suffix and
returns the view that the string is decoded from. -/
def SameToken (mem : Memory) (st : State) : Prop :=
  ∀ st' s, (stringParser mem).run st = some (some (st', s)) → st'.Suffix st →
    ∃ view, (parseStringView mem).run st = some (some (st', view)) ∧ unescape view = some s

theorem unescape_plain (h : c ≠ ch '\\') (t : List UInt8) :
    unescape (c :: t) = (unescape t).map (c :: ·) := by
  cases t with
  | nil => simp only [unescape, if_neg h, Option.map_some]
  | cons d t => rw [unescape, if_neg h]

theorem unescape_encodes (h : Encodes e s) : unescape e = some s := by
  induction h with
  | nil => rfl
  | plain hquote hbackslash h ih => rw [unescape_plain hbackslash, ih]; rfl
  | code hcode h ih => rw [unescape, if_pos rfl, hcode, ih]; rfl

theorem quote_not_start (h : c ≠ ch '"') (t : List UInt8) : ¬ [ch '"'] <+: c :: t := by
  rw [List.cons_prefix_cons]
  exact fun hp => h hp.1.symm

theorem backslash_not_start (h : c ≠ ch '\\') (t : List UInt8) : ¬ [ch '\\'] <+: c :: t := by
  rw [List.cons_prefix_cons]
  exact fun hp => h hp.1.symm

theorem Encodes.quote_not_start (h : Encodes e s) (hne : e ≠ []) (t : List UInt8) :
    ¬ [ch '"'] <+: e ++ t := by
  cases h with
  | nil => exact absurd rfl hne
  | plain hquote _ _ => exact Noam.quote_not_start hquote _
  | code _ _ => exact Noam.quote_not_start (by decide) _

/-- In front of a quote no word of units ends in an escape: the quote would belong to it. -/
theorem getLast?_units {w : List UInt8} (h : Units [ch '"'] [ch '\\'] w t) (ht : [ch '"'] <+: t) :
    w.getLast? ≠ some (ch '\\') := by
  induction h with
  | nil => simp
  | @escapeEnd w t hend h ih =>
    cases w with
    | nil => decide
    | cons c w => simpa using ih ht
  | @escape w t hend hnext h ih =>
    cases w with
    | nil => exact absurd ht hnext
    | cons c w => simpa using ih ht
  | @char c w t hend hescape h ih =>
    cases w with
    | nil =>
      intro hc
      rw [List.getLast?_singleton, Option.some.injEq] at hc
      exact hescape (hc ▸ List.prefix_append [ch '\\'] t)
    | cons d w => simpa using ih ht

/-- An encoded string that does not end in an escaped backslash is a word of units in front of a
quote. -/
theorem units_of_encodes (h : Encodes e s)
    (hend : ¬ ∃ e' s', Encodes e' s' ∧ e = e' ++ [ch '\\', ch '\\']) (r : List UInt8) :
    Units [ch '"'] [ch '\\'] e (ch '"' :: r) := by
  induction h with
  | nil => exact .nil _
  | @plain c e s hquote hbackslash h ih =>
    have hrest := ih fun ⟨e', s', he', heq⟩ =>
      hend ⟨c :: e', c :: s', he'.plain hquote hbackslash, by rw [heq]; rfl⟩
    exact .char (quote_not_start hquote _) (backslash_not_start hbackslash _) hrest
  | @code c v e s hcode h ih =>
    have hrest := ih fun ⟨e', s', he', heq⟩ =>
      hend ⟨ch '\\' :: c :: e', v :: s', he'.code hcode, by rw [heq]; rfl⟩
    have hstart : ∀ t, ¬ [ch '"'] <+: ch '\\' :: t := quote_not_start (by decide)
    by_cases hquote : c = ch '"'
    · subst hquote
      exact .escapeEnd (hstart _) hrest
    by_cases hbackslash : c = ch '\\'
    · subst hbackslash
      have hne : e ≠ [] := fun hnil => hend ⟨[], [], .nil, by rw [hnil]; rfl⟩
      exact .escape (hstart _) (hstart _) (.escape (hstart _) (h.quote_not_start hne _) hrest)
    · exact .escape (hstart _) (quote_not_start hquote _)
        (.char (quote_not_start hquote _) (backslash_not_start hbackslash _) hrest)

theorem not_sameToken (hst : st.IsView) (he : Encodes e s)
    (htext : st.text mem = ch '"' :: (e ++ ch '\\' :: ch '\\' :: ch '"' :: r)) : ¬ SameToken mem st := by
  intro h
  have hsize : 0 < (AnyLiteral.charLiteral (ch '"')).size := Nat.zero_lt_one
  have hcode : Encodes (e ++ [ch '\\', ch '\\']) (s ++ [ch '\\']) := he.append (.code rfl .nil)
  have htext' : st.text mem = ch '"' :: ((e ++ [ch '\\', ch '\\']) ++ ch '"' :: r) := by
    rw [htext]; simp
  have hrun := run_closed hst htext' hcode rfl
  obtain ⟨-, hle⟩ := text_after_closed htext'
  obtain ⟨view, hview, -⟩ := h _ _ hrun (State.suffix_removePrefix hle hst.valid)
  obtain ⟨r', hframed, hst'⟩ := (run_viewParser_iff hsize hst.valid).1 hview
  have hlen : (e ++ [ch '\\', ch '\\']).length = view.length := by
    have hbegin := congrArg State._begin hst'
    have hone : (AnyLiteral.charLiteral (ch '"')).size = 1 := rfl
    simp only [State.removePrefix_begin, hone] at hbegin
    omega
  have heq : (e ++ [ch '\\', ch '\\']) ++ ch '"' :: r = view ++ ch '"' :: r' :=
    (List.cons.inj (htext'.symm.trans hframed.text_eq)).2
  obtain ⟨rfl, -⟩ := List.append_inj heq hlen
  exact getLast?_units hframed.units (List.prefix_append _ _) (by simp)

/-- The two string parsers take the same characters unless the string ends in an escaped backslash. -/
theorem sameToken_iff (mem : Memory) (hst : st.IsView) : SameToken mem st ↔
    ¬ ∃ e s r, Encodes e s ∧ st.text mem = ch '"' :: (e ++ ch '\\' :: ch '\\' :: ch '"' :: r) := by
  constructor
  · rintro h ⟨e, s, r, he, htext⟩
    exact not_sameToken hst he htext h
  · intro hend st' s hrun hs
    obtain ⟨e, r, he, htext, rfl⟩ := closed_of_run hst hrun hs
    have hsize : 0 < (AnyLiteral.charLiteral (ch '"')).size := Nat.zero_lt_one
    have hunits : Units [ch '"'] [ch '\\'] e (ch '"' :: r) := by
      refine units_of_encodes he ?_ r
      rintro ⟨e', s', he', rfl⟩
      exact hend ⟨e', s', r, he', by rw [htext]; simp⟩
    refine ⟨e, (run_viewParser_iff hsize hst.valid).2 ⟨r, ⟨htext, hunits⟩, ?_⟩, unescape_encodes he⟩
    show st.removePrefix (e.length + 2) = st.removePrefix (1 + e.length + 1)
    rw [Nat.add_comm 1]

/-- An escaped quote is the same for both. -/
theorem sameToken_quote :
    SameToken (Memory.ofText [ch '"', ch '\\', ch '"', ch '"']) (State.ofLength 4) := by
  refine (sameToken_iff _ ⟨by decide, by decide⟩).2 ?_
  rintro ⟨e, s, r, -, h⟩
  replace h : [ch '"', ch '\\', ch '"', ch '"'] =
    ch '"' :: (e ++ ch '\\' :: ch '\\' :: ch '"' :: r) := h
  cases e with
  | nil => cases h
  | cons c e =>
    have hlen := congrArg List.length h
    simp only [List.length_cons, List.length_append, List.length_nil] at hlen
    omega

/-- `"\\"` is a string of one backslash, but has no end for `parse_string_view`. -/
theorem sameToken_backslash_fails : (State.ofLength 4).IsView ∧
    ¬ SameToken (Memory.ofText [ch '"', ch '\\', ch '\\', ch '"']) (State.ofLength 4) := by
  have hst : (State.ofLength 4).IsView := ⟨by decide, by decide⟩
  exact ⟨hst, not_sameToken hst (e := []) (r := []) .nil rfl⟩

/-! ### Quoting -/

/-- The letter of the escape of a byte. -/
def escapeLetter (v : UInt8) : Option UInt8 :=
  if v = 8 then some (ch 'b')
  else if v = 12 then some (ch 'f')
  else if v = ch '\n' then some (ch 'n')
  else if v = ch '\r' then some (ch 'r')
  else if v = ch '\t' then some (ch 't')
  else if v = ch '\\' then some (ch '\\')
  else if v = ch '"' then some (ch '"')
  else none

/-- A byte of a quoted string: a quote or a backslash is escaped, and any other byte that has an escape
is when it is marked. -/
def quoteByte (x : UInt8 × Bool) : List UInt8 :=
  match escapeLetter x.1 with
  | some c => if x.1 = ch '"' ∨ x.1 = ch '\\' ∨ x.2 = true then [ch '\\', c] else [x.1]
  | none => [x.1]

def quoteBody (l : List (UInt8 × Bool)) : List UInt8 := l.flatMap quoteByte

/-- The string of the bytes of `l` between quotes, with the marked ones escaped. -/
def quote (l : List (UInt8 × Bool)) : List UInt8 := ch '"' :: (quoteBody l ++ [ch '"'])

theorem escapeCode_eq_some_iff : escapeCode c = some v ↔ escapeLetter v = some c := by
  unfold escapeCode escapeLetter
  constructor
  · intro h
    split_ifs at h with h₁ h₂ h₃ h₄ h₅ h₆ h₇ <;> cases h <;> subst_vars <;> decide
  · intro h
    split_ifs at h with h₁ h₂ h₃ h₄ h₅ h₆ h₇ <;> cases h <;> subst_vars <;> decide

theorem quoteByte_plain (hquote : v ≠ ch '"') (hbackslash : v ≠ ch '\\') :
    quoteByte (v, false) = [v] := by
  unfold quoteByte
  rcases escapeLetter v with _ | c
  · rfl
  · exact if_neg (by simp [hquote, hbackslash])

theorem quoteByte_code (h : escapeLetter v = some c) : quoteByte (v, true) = [ch '\\', c] := by
  unfold quoteByte
  simp only [h]
  exact if_pos (.inr (.inr trivial))

theorem encodes_quoteByte (x : UInt8 × Bool) : Encodes (quoteByte x) [x.1] := by
  unfold quoteByte
  rcases h : escapeLetter x.1 with _ | c
  · refine .plain (fun hquote => ?_) (fun hbackslash => ?_) .nil
    · rw [hquote] at h; cases h
    · rw [hbackslash] at h; cases h
  · simp only
    split
    · exact .code (escapeCode_eq_some_iff.2 h) .nil
    · rename_i hne
      exact .plain (fun hquote => hne (.inl hquote)) (fun hbackslash => hne (.inr (.inl hbackslash))) .nil

/-- Quoted strings are encoded strings. -/
theorem encodes_quoteBody (l : List (UInt8 × Bool)) : Encodes (quoteBody l) (l.map Prod.fst) := by
  induction l with
  | nil => exact .nil
  | cons x l ih =>
    rw [quoteBody, List.flatMap_cons, List.map_cons]
    exact (encodes_quoteByte x).append ih

/-- An encoded string is a quoted one: mark what is escaped. -/
theorem exists_quoteBody (h : Encodes e s) : ∃ l, l.map Prod.fst = s ∧ quoteBody l = e := by
  induction h with
  | nil => exact ⟨[], rfl, rfl⟩
  | @plain c e s hquote hbackslash h ih =>
    obtain ⟨l, rfl, rfl⟩ := ih
    refine ⟨(c, false) :: l, rfl, ?_⟩
    rw [quoteBody, List.flatMap_cons, quoteByte_plain hquote hbackslash]; rfl
  | @code c v e s hcode h ih =>
    obtain ⟨l, rfl, rfl⟩ := ih
    refine ⟨(v, true) :: l, rfl, ?_⟩
    rw [quoteBody, List.flatMap_cons, quoteByte_code (escapeCode_eq_some_iff.1 hcode)]; rfl

/-- `parse_string` decodes quoted strings, whatever is escaped in them, and nothing else; an unknown escape is
rejected. -/
theorem stringParser_decodes (mem : Memory) (hst : st.IsView) :
    (∀ l r, st.text mem = quote l ++ r → ∃ st',
      (stringParser mem).run st = some (some (st', l.map Prod.fst)) ∧ st'.Suffix st ∧
        st'.text mem = r) ∧
    (∀ st' s, (stringParser mem).run st = some (some (st', s)) → st'.Suffix st →
      ∃ l, l.map Prod.fst = s ∧ st.text mem = quote l ++ st'.text mem) ∧
    (∀ l c r, (∀ v, escapeLetter v ≠ some c) →
      st.text mem = ch '"' :: (quoteBody l ++ ch '\\' :: c :: r) →
        (stringParser mem).run st = some none) := by
  refine ⟨?_, ?_, ?_⟩
  · intro l r htext
    have htext' : st.text mem = ch '"' :: (quoteBody l ++ ch '"' :: r) := by rw [htext, quote]; simp
    obtain ⟨htail, hle⟩ := text_after_closed htext'
    exact ⟨_, run_closed hst htext' (encodes_quoteBody l) rfl, State.suffix_removePrefix hle hst.valid, htail⟩
  · intro st' s h hs
    obtain ⟨e, r, he, htext, rfl⟩ := closed_of_run hst h hs
    obtain ⟨l, hl, rfl⟩ := exists_quoteBody he
    refine ⟨l, hl, ?_⟩
    rw [(text_after_closed htext).1, htext, quote]
    simp
  · intro l c r hc htext
    refine run_unknown hst htext (encodes_quoteBody l) rfl ?_
    rcases hcode : escapeCode c with _ | v
    · rfl
    · exact absurd (escapeCode_eq_some_iff.1 hcode) (hc v)

/-- A quote, a line feed and a tabulator in a string, the line feed escaped. -/
theorem stringParser_decodes_escapes :
    let mem := Memory.ofText [ch '"', ch '\\', ch '"', ch '\\', ch 'n', ch '\t', ch '"', ch 'x']
    ∃ st', (stringParser mem).run (State.ofLength 8) =
        some (some (st', [ch '"', ch '\n', ch '\t'])) ∧
      st'.Suffix (State.ofLength 8) ∧ st'.text mem = [ch 'x'] := by
  intro mem
  exact (stringParser_decodes mem ⟨by decide, by decide⟩).1
    [(ch '"', false), (ch '\n', true), (ch '\t', false)] [ch 'x'] rfl

end Noam
