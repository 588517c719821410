import Noam.Recognition
import Noam.Rendering
import Noam.Views
import Mathlib.Data.List.TakeWhile

/-!
# The grammar of brackets and separators

The parsers of the combinators recognise grammars of the texts that states show. Whitespace is taken as
far as it goes, by the opening bracket, by the separators and before the closing bracket, so that the
text after it does not start with whitespace; between elements that do not start with whitespace either,
this is the same as any whitespace in these places.
-/

namespace Noam
open GetResult ValueType Attempt Loop Framing Recognition

variable {V : ValueType} {β X : Type} {mem : Memory} {t t' : List UInt8} {n : Nat}
variable {opening sep closing lit : AnyLiteral}

/-- States and the texts that they show. -/
def textCursor (mem : Memory) : Cursor State UInt8 where
  Shows st t := st.Shows mem t
  drop := State.removePrefix
  drop_zero _ := rfl
  drop_drop _ := State.removePrefix_removePrefix
  shows_drop h := h.drop
  shows_unique h h' := h.text.symm.trans h'.text

/-- Any text. -/
def Anywhere (_ : List UInt8) : Prop := True

def ShorterThan (n : Nat) (t : List UInt8) : Prop := t.length < n

theorem shorterThan_of_append {w : List UInt8} (h : ShorterThan n (w ++ t)) : ShorterThan n t := by
  unfold ShorterThan at *
  rw [List.length_append] at h
  omega

theorem recognizes_shorter {A : Attempt State β} {G : Grammar UInt8 β}
    (h : Recognizes (textCursor mem) Anywhere A G) (n : Nat) :
    Recognizes (textCursor mem) (ShorterThan n) A G := h.mono fun _ _ => trivial

theorem Parser.Reads.recognizes {p : Parser false V} {F : OnText V} (h : p.Reads mem F)
    (hF : ∀ t, (F t).isSome) : Recognizes (textCursor mem) Anywhere p.run
      fun t v t' => ∃ n, F t = some (some (n, v)) ∧ t' = t.drop n := by
  constructor
  · rintro st t v t' _ hst ⟨n, hn, ht'⟩
    have hlen : (t.take n).length = n := List.length_take_of_le (h.le_length hn)
    refine ⟨t.take n, by rw [ht', List.take_append_drop], ?_⟩
    rw [hlen]
    exact h.run_some hst hn
  · intro st t _ hst hno
    obtain ⟨x, hx⟩ := Option.isSome_iff_exists.1 (hF t)
    rcases x with _ | ⟨n, v⟩
    · exact h.run_fail hst hx
    · exact absurd ⟨n, hx, rfl⟩ (hno v (t.drop n))

theorem recognizes_ofAttempt {V : ValueType} {D : List UInt8 → Prop} {A : Attempt State V}
    {G : Grammar UInt8 V} {g : Bool} (hg : g = false) (h : Recognizes (textCursor mem) D A G) :
    Recognizes (textCursor mem) D (Parser.ofAttempt g A).run G := by
  subst hg
  constructor
  · intro s t b t' hD hs hG
    obtain ⟨w, ht, hA⟩ := h.parses hD hs hG
    refine ⟨w, ht, ?_⟩
    rw [run_ofAttempt, hA, Option.bind_some]
    exact settle_of_good (State.good_removePrefix hs.good _) _
  · intro s t hD hs hno
    rw [run_ofAttempt, h.fails hD hs hno]; rfl

/-! ### Whitespace and punctuation -/

/-- The opening bracket and any whitespace. -/
def Opens (opening : AnyLiteral) : Grammar UInt8 Unit := fun t _ t' =>
  ∃ a : Blank, t = opening.text ++ (a.1 ++ t')

/-- A separator with any whitespace around it. -/
def Separates (sep : AnyLiteral) : Grammar UInt8 Unit := fun t _ t' =>
  ∃ a b : Blank, t = a.1 ++ (sep.text ++ (b.1 ++ t'))

/-- Any whitespace and the closing bracket. -/
def Closes (closing : AnyLiteral) : Grammar UInt8 Unit := fun t _ t' =>
  ∃ a : Blank, t = a.1 ++ (closing.text ++ t')

/-- All the whitespace at the start of a text. -/
theorem exists_blank (t : List UInt8) : ∃ (a : Blank) (t' : List UInt8),
    t = a.1 ++ t' ∧ startsBlank t' = false := by
  refine ⟨⟨t.takeWhile (· ∈ whitespaceChars), fun c hc => ?_⟩, t.dropWhile (· ∈ whitespaceChars),
    List.takeWhile_append_dropWhile.symm, ?_⟩
  · simpa using List.mem_takeWhile_imp hc
  · rcases h : t.dropWhile (· ∈ whitespaceChars) with _ | ⟨c, t'⟩
    · rfl
    · have hc := List.head?_dropWhile_not (· ∈ whitespaceChars) t
      rw [h] at hc
      simpa [startsBlank] using hc

/-- There is one way to split off all the whitespace. -/
theorem eq_of_blank_append {a a' : Blank} (ht : startsBlank t = false) (ht' : startsBlank t' = false)
    (h : a.1 ++ t = a'.1 ++ t') : t = t' := by
  have hlen : a.1.length = a'.1.length := by
    rw [← runLength_blank a ht, h, runLength_blank a' ht']
  exact (List.append_inj h hlen).2

theorem openParser_fails {st : State} (h : st.Shows mem t) (hp : ¬ opening.text <+: t) :
    (openParser mem opening).run st = some none := by
  rw [(openParser_refines mem opening).run_eq h.good, bind_fail (literal_fails h hp)]

theorem closeParser_fails {st : State} (a : Blank) (h : st.Shows mem (a.1 ++ t))
    (ht : startsBlank t = false) (hp : ¬ closing.text <+: t) :
    (closeParser mem closing).run st = some none := by
  rw [(closeParser_refines mem closing).run_eq h.good, bind_some (whitespace_shows a h ht),
    literal_fails h.drop hp]

theorem recognizes_openParser (mem : Memory) (opening : AnyLiteral) :
    Recognizes (textCursor mem) Anywhere (openParser mem opening).run
      fun t u t' => Opens opening t u t' ∧ startsBlank t' = false := by
  constructor
  · rintro st t u t' _ hst ⟨⟨a, ht⟩, hb⟩
    subst ht
    exact ⟨opening.text ++ a.1, by rw [List.append_assoc], openParser_shows a hst hb⟩
  · intro st t _ hst hno
    refine openParser_fails hst fun ⟨t₁, ht⟩ => ?_
    obtain ⟨a, t', rfl, hb⟩ := exists_blank t₁
    exact hno () t' ⟨⟨a, ht.symm⟩, hb⟩

theorem recognizes_separator (mem : Memory) (hne : sep.text ≠ [])
    (hstart : startsBlank sep.text = false) :
    Recognizes (textCursor mem) Anywhere (separator mem [sep]).run
      fun t u t' => Separates sep t u t' ∧ startsBlank t' = false := by
  constructor
  · rintro st t u t' _ hst ⟨⟨a, b, ht⟩, hb⟩
    subst ht
    exact ⟨a.1 ++ (sep.text ++ b.1), by simp only [List.append_assoc],
      separator_shows a b hne hstart hst hb⟩
  · intro st t _ hst hno
    obtain ⟨a, t₁, rfl, ha⟩ := exists_blank t
    refine separator_fails a hst ha fun ⟨t₂, ht⟩ => ?_
    obtain ⟨b, t', rfl, hb⟩ := exists_blank t₂
    exact hno () t' ⟨⟨a, b, by rw [ht]⟩, hb⟩

theorem recognizes_closeParser (mem : Memory) (hne : closing.text ≠ [])
    (hstart : startsBlank closing.text = false) :
    Recognizes (textCursor mem) Anywhere (closeParser mem closing).run (Closes closing) := by
  constructor
  · rintro st t u t' _ hst ⟨a, ht⟩
    subst ht
    exact ⟨a.1 ++ closing.text, by rw [List.append_assoc], closeParser_shows a hne hstart hst⟩
  · intro st t _ hst hno
    obtain ⟨a, t₁, rfl, ha⟩ := exists_blank t
    exact closeParser_fails a hst ha fun ⟨t', ht⟩ => hno () t' ⟨a, by rw [ht]⟩

theorem recognizes_whitespace (mem : Memory) :
    Recognizes (textCursor mem) Anywhere (whitespace mem).run
      fun t _ t' => (∃ a : Blank, t = a.1 ++ t') ∧ startsBlank t' = false := by
  constructor
  · rintro st t u t' _ hst ⟨⟨a, ht⟩, hb⟩
    subst ht
    exact ⟨a.1, rfl, whitespace_shows a hst hb⟩
  · intro st t _ hst hno
    obtain ⟨a, t', ht, hb⟩ := exists_blank t
    exact absurd ⟨⟨a, ht⟩, hb⟩ (hno () t')

/-- What `G` derives, with any whitespace before it and all the whitespace after it. -/
def Trimmed (G : Grammar UInt8 β) : Grammar UInt8 β := fun t b t' =>
  ∃ (a a' : Blank) (t₁ : List UInt8), t = a.1 ++ t₁ ∧ G t₁ b (a'.1 ++ t') ∧ startsBlank t' = false

theorem recognizes_whitespaceEnclose {g : Bool} {p : Parser g V} {G : Grammar UInt8 V}
    (hp : Recognizes (textCursor mem) Anywhere p.run G)
    (hstart : ∀ t v t', G t v t' → startsBlank t = false) :
    Recognizes (textCursor mem) Anywhere (whitespaceEnclose mem p).run (Trimmed G) := by
  have hblank := recognizes_whitespace mem
  rw [whitespaceEnclose, enclose_eq]
  refine (recognizes_ofAttempt rfl (hblank.bind (fun _ => hp.bind (fun v => hblank.map fun _ => v)
    fun _ _ _ h _ => h) fun _ _ _ h _ => h)).congr fun t v t' _ => ?_
  constructor
  · rintro ⟨a, a', t₁, ht, hG, hb⟩
    exact ⟨(), t₁, ⟨⟨a, ht⟩, hstart _ _ _ hG⟩, v, _, hG, (), ⟨⟨a', rfl⟩, hb⟩, rfl⟩
  · rintro ⟨_, t₁, ⟨⟨a, ht⟩, -⟩, w, _, hG, _, ⟨⟨a', rfl⟩, hb⟩, rfl⟩
    exact ⟨a, a', t₁, ht, hG, hb⟩

/-! ### Lists in brackets -/

/-- What separates and closes: not empty, no whitespace, and neither starts like the other. -/
structure Punctuation (sep closing : AnyLiteral) : Prop where
  sep_ne : sep.text ≠ []
  sep_start : startsBlank sep.text = false
  closing_ne : closing.text ≠ []
  closing_start : startsBlank closing.text = false
  sep_not_prefix : ¬ sep.text <+: closing.text
  closing_not_prefix : ¬ closing.text <+: sep.text

/-- A separated list in brackets. -/
def Bracketed (opening sep closing : AnyLiteral) (G : Grammar UInt8 β) : Grammar UInt8 (List β) :=
  fun t bs t' => ∃ t₁ t₂, Opens opening t () t₁ ∧ SepList (Separates sep) G t₁ bs t₂ ∧
    Closes closing t₂ () t'

/-- An element starts neither with whitespace nor where a closing bracket does. -/
def ElementStart (closing : AnyLiteral) (t : List UInt8) : Prop :=
  startsBlank t = false ∧ ¬ closing.text <+: t

namespace Punctuation
variable {G : Grammar UInt8 β} {u w : Unit} {t₁ t₂ t'' : List UInt8} {bs : List β}
variable (h : Punctuation sep closing)
include h

theorem start_closing (t : List UInt8) : startsBlank (closing.text ++ t) = false := by
  rw [startsBlank_append h.closing_ne, h.closing_start]

theorem length_lt_of_separates (hsep : Separates sep t u t') : t'.length < t.length := by
  obtain ⟨a, b, rfl⟩ := hsep
  have hpos := List.length_pos_iff.2 h.sep_ne
  simp only [List.length_append]
  omega

/-- No separator starts where the closing bracket does. -/
theorem not_closes_of_separates (hsep : Separates sep t u t') : ¬ Closes closing t w t'' := by
  rintro ⟨a', ha'⟩
  obtain ⟨a, b, rfl⟩ := hsep
  have hstart : startsBlank (sep.text ++ (b.1 ++ t')) = false := by
    rw [startsBlank_append h.sep_ne, h.sep_start]
  have heq := eq_of_blank_append hstart (h.start_closing t'') ha'
  rcases List.prefix_or_prefix_of_prefix (prefix_of_append_eq heq) (List.prefix_append sep.text _)
    with hp | hp
  · exact h.closing_not_prefix hp
  · exact h.sep_not_prefix hp

theorem not_closes_of_start (hstart : ElementStart closing t) : ¬ Closes closing t w t'' := by
  rintro ⟨a, ha⟩
  have heq : Blank.none.1 ++ t = a.1 ++ (closing.text ++ t'') := ha
  exact hstart.2 ⟨t'', (eq_of_blank_append hstart.1 (h.start_closing t'') heq).symm⟩

/-- It makes no difference when the opening bracket and the separators take all the whitespace. -/
theorem bracketed_iff (hG : ∀ t b t', G t b t' → ElementStart closing t) :
    Bracketed opening sep closing G t bs t' ↔ ∃ t₁ t₂,
      (Opens opening t () t₁ ∧ startsBlank t₁ = false) ∧
      SepList (fun t (u : Unit) t' => Separates sep t u t' ∧ startsBlank t' = false) G t₁ bs t₂ ∧
      Closes closing t₂ () t' := by
  constructor
  · rintro ⟨t₁, t₂, ⟨a, rfl⟩, hlist, ⟨b, rfl⟩⟩
    cases hlist with
    | nil =>
      -- all the whitespace belongs to the opening bracket
      refine ⟨closing.text ++ t', closing.text ++ t', ⟨⟨a.append b, ?_⟩, h.start_closing t'⟩,
        .nil _, ⟨Blank.none, rfl⟩⟩
      simp [Blank.append]
    | cons helem hrest =>
      refine ⟨t₁, _, ⟨⟨a, rfl⟩, (hG _ _ _ helem).1⟩, ?_, ⟨b, rfl⟩⟩
      exact (SepList.cons helem hrest).imp fun _ _ _ _ _ hsep helem => ⟨hsep, (hG _ _ _ helem).1⟩
  · rintro ⟨t₁, t₂, ⟨hopen, -⟩, hlist, hclose⟩
    exact ⟨t₁, t₂, hopen, hlist.imp fun _ _ _ _ _ hsep _ => hsep.1, hclose⟩

end Punctuation


/-- Brackets around elements that are recognised on shorter texts. -/
theorem recognizes_bracketed {A : Attempt State V} {G : Grammar UInt8 V} (h : Punctuation sep closing)
    (hopening : opening.text ≠ []) (hA : Recognizes (textCursor mem) (ShorterThan n) A G)
    (hG : ∀ t b t', G t b t' → ElementStart closing t) (push : X → V → X) (x : X) :
    Recognizes (textCursor mem) (ShorterThan (n + 1)) (bracketed mem opening sep closing A push x)
      fun t y t' => ∃ bs, Bracketed opening sep closing G t bs t' ∧ y = bs.foldl push x := by
  have hopen := recognizes_shorter (recognizes_openParser mem opening) (n + 1)
  have hsep := recognizes_shorter (recognizes_separator mem h.sep_ne h.sep_start) n
  have hclose := recognizes_shorter (recognizes_closeParser mem h.closing_ne h.closing_start) n
  have hlist := recognizes_sepBy hsep hA
    (fun _ _ => shorterThan_of_append)
    (fun hs => h.length_lt_of_separates hs.1) push x hclose
    (fun hs => h.not_closes_of_separates hs.1) fun hg => h.not_closes_of_start (hG _ _ _ hg)
  have hall := hopen.bind (fun _ => hlist) fun w t _ (ht : (w ++ t).length < n + 1) ho => by
    obtain ⟨⟨a, ha⟩, -⟩ := ho
    have hpos := List.length_pos_iff.2 hopening
    have hlen := congrArg List.length ha
    simp only [List.length_append] at ht hlen
    show t.length < n
    omega
  refine hall.congr fun t y t' _ => ?_
  constructor
  · rintro ⟨bs, hb, rfl⟩
    obtain ⟨t₁, t₂, ho, hl, hc⟩ := (h.bracketed_iff hG).1 hb
    exact ⟨(), t₁, ho, bs, t₂, (), hl, hc, rfl⟩
  · rintro ⟨_, t₁, ho, bs, t₂, _, hl, hc, rfl⟩
    exact ⟨bs, (h.bracketed_iff hG).2 ⟨t₁, t₂, ho, hl, hc⟩, rfl⟩

end Noam
