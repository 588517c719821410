import Noam.Adequacy
import Noam.JsonRoundTrip

/-!
# How big parsed values are

The value that `parse_json` returns has room in the text that it takes: its strings and keys are pieces of
this text, and the brackets, quotes, commas and colons of its parts have places of their own there. So no
text makes a value that is bigger than itself.
-/

namespace Noam
open GetResult ValueType Attempt Loop Framing Recognition

variable {N : Type} {mem : Memory} {st st' : State} {t t' : List UInt8} {v : JsonValue N} {β : Type}

/-! ### Sizes and strings of values -/

mutual

/-- The characters that a text of the value has at least, with one for each number. -/
def JsonValue.size : JsonValue N → Nat
  | .null => nullLiteral.text.length
  | .boolean b => (booleanLiteral b).length
  | .number _ => 1
  | .string sv => sv.length + 2
  | .array arr => max 1 (sizeArray arr) + 1
  | .object obj => max 1 (sizeObject obj) + 1

/-- The elements, each with a comma or the closing bracket behind it. -/
def sizeArray : List (JsonValue N) → Nat
  | [] => 0
  | v :: vs => v.size + 1 + sizeArray vs

def sizeObject : List (List UInt8 × JsonValue N) → Nat
  | [] => 0
  | (key, val) :: entries => key.length + 3 + val.size + 1 + sizeObject entries

end

mutual

/-- The strings and the keys in a value. -/
def JsonValue.strings : JsonValue N → List (List UInt8)
  | .null => []
  | .boolean _ => []
  | .number _ => []
  | .string sv => [sv]
  | .array arr => stringsArray arr
  | .object obj => stringsObject obj

def stringsArray : List (JsonValue N) → List (List UInt8)
  | [] => []
  | v :: vs => v.strings ++ stringsArray vs

def stringsObject : List (List UInt8 × JsonValue N) → List (List UInt8)
  | [] => []
  | (key, val) :: entries => key :: val.strings ++ stringsObject entries

end

def entrySize (e : List UInt8 × JsonValue N) : Nat := e.1.length + 3 + e.2.size

def entryStrings (e : List UInt8 × JsonValue N) : List (List UInt8) := e.1 :: e.2.strings

/-- The sizes of several parts, each with one more character. -/
def totalSize (size : β → Nat) (bs : List β) : Nat := (bs.map fun b => size b + 1).sum

theorem totalSize_cons (size : β → Nat) (b : β) (bs : List β) :
    totalSize size (b :: bs) = size b + 1 + totalSize size bs := List.sum_cons

theorem sizeArray_eq (vs : List (JsonValue N)) : sizeArray vs = totalSize JsonValue.size vs := by
  induction vs with
  | nil => rfl
  | cons v vs ih => rw [sizeArray, ih, totalSize_cons]

theorem sizeObject_eq (entries : List (List UInt8 × JsonValue N)) :
    sizeObject entries = totalSize entrySize entries := by
  induction entries with
  | nil => rfl
  | cons e entries ih => rw [sizeObject, ih, totalSize_cons, entrySize]

theorem stringsArray_eq (vs : List (JsonValue N)) : stringsArray vs = vs.flatMap JsonValue.strings := by
  induction vs with
  | nil => rfl
  | cons v vs ih => rw [stringsArray, ih, List.flatMap_cons]

theorem stringsObject_eq (entries : List (List UInt8 × JsonValue N)) :
    stringsObject entries = entries.flatMap entryStrings := by
  induction entries with
  | nil => rfl
  | cons e entries ih => rw [stringsObject, ih, List.flatMap_cons, entryStrings]

/-! ### Room in a text -/

/-- The text has `n` characters or more, and the strings stand in it. -/
structure Room (n : Nat) (strings : List (List UInt8)) (w : List UInt8) : Prop where
  le_length : n ≤ w.length
  infix_text : ∀ raw ∈ strings, raw <:+: w

namespace Room
variable {n m : Nat} {ss ss' : List (List UInt8)} {w w' : List UInt8}

theorem of_length (h : n ≤ w.length) : Room n [] w := ⟨h, by simp⟩

theorem append (h : Room n ss w) (h' : Room m ss' w') : Room (n + m) (ss ++ ss') (w ++ w') := by
  refine ⟨?_, fun raw hraw => ?_⟩
  · have hle := h.le_length
    have hle' := h'.le_length
    rw [List.length_append]
    omega
  · rcases List.mem_append.1 hraw with hraw | hraw
    · exact (h.infix_text raw hraw).trans (List.prefix_append w w').isInfix
    · exact (h'.infix_text raw hraw).trans (List.suffix_append w w').isInfix

theorem mono (h : Room n ss w) (hle : m ≤ n) (hsub : ∀ raw ∈ ss', raw ∈ ss) : Room m ss' w :=
  ⟨hle.trans h.le_length, fun raw hraw => h.infix_text raw (hsub raw hraw)⟩

end Room

/-- The text in front of the rest has room for what is derived. -/
def Fits (size : β → Nat) (strings : β → List (List UInt8)) : Grammar UInt8 β := fun t b t' =>
  ∃ w, t = w ++ t' ∧ Room (size b) (strings b) w

section
variable {size : β → Nat} {strings : β → List (List UInt8)} {bs : List β} {c : UInt8}

theorem Separates.room {u : Unit} (h : Separates (.charLiteral c) t u t') :
    ∃ w, t = w ++ t' ∧ Room 1 [] w := by
  obtain ⟨a, b, rfl⟩ := h
  refine ⟨a.1 ++ ([c] ++ b.1), by simp [AnyLiteral.text], .of_length ?_⟩
  simp only [List.length_append, List.length_singleton]
  omega

/-- Elements behind separators, each with its separator. -/
theorem SepRest.fits (h : SepRest (Separates (.charLiteral c)) (Fits size strings) t bs t') :
    Fits (totalSize size) (List.flatMap strings) t bs t' := by
  induction h with
  | nil t => exact ⟨[], rfl, .of_length le_rfl⟩
  | cons hsep helem _ ih =>
    obtain ⟨w, rfl, hw⟩ := Separates.room hsep
    obtain ⟨w₁, rfl, hw₁⟩ := helem
    obtain ⟨w₂, rfl, hw₂⟩ := ih
    refine ⟨w ++ (w₁ ++ w₂), by simp, (hw.append (hw₁.append hw₂)).mono ?_ fun raw hraw => hraw⟩
    rw [totalSize_cons]
    omega

/-- Elements between brackets, each with the comma or the bracket behind it. -/
theorem Bracketed.fits {d d' : UInt8}
    (h : Bracketed (.charLiteral d) (.charLiteral c) (.charLiteral d') (Fits size strings) t bs t') :
    Fits (fun bs => max 1 (totalSize size bs) + 1) (List.flatMap strings) t bs t' := by
  obtain ⟨t₁, t₂, ⟨a, rfl⟩, hlist, a', rfl⟩ := h
  obtain ⟨w, rfl, hlength, hstrings⟩ : ∃ w, t₁ = w ++ (a'.1 ++ ([d'] ++ t')) ∧
      totalSize size bs ≤ w.length + 1 ∧ ∀ raw ∈ bs.flatMap strings, raw <:+: w := by
    cases hlist with
    | nil => exact ⟨[], rfl, Nat.zero_le _, by simp⟩
    | cons helem hrest =>
      obtain ⟨w₁, rfl, hw₁⟩ := helem
      obtain ⟨w₂, rfl, hw₂⟩ := SepRest.fits hrest
      have hw := hw₁.append hw₂
      refine ⟨w₁ ++ w₂, by simp [AnyLiteral.text], ?_, hw.infix_text⟩
      have hle := hw.le_length
      rw [totalSize_cons]
      omega
  have hopen : Room 1 [] ([d] ++ a.1) := .of_length (by simp)
  have hinner : Room (max 1 (totalSize size bs)) (bs.flatMap strings) (w ++ (a'.1 ++ [d'])) := by
    refine ⟨?_, fun raw hraw => (hstrings raw hraw).trans (List.prefix_append _ _).isInfix⟩
    simp only [List.length_append, List.length_singleton]
    omega
  refine ⟨([d] ++ a.1) ++ (w ++ (a'.1 ++ [d'])), by simp [AnyLiteral.text], ?_⟩
  exact (hopen.append hinner).mono (Nat.add_comm _ _).le fun raw hraw => hraw

end

/-! ### Objects keep the first entry of a key -/

theorem StdMap.totalSize_insertBefore {K X : Type} [LT K] [DecidableLT K] (size : K × X → Nat)
    (m : StdMap K X) (k : K) (x : X) :
    totalSize size (m.insertBefore k x) = size (k, x) + 1 + totalSize size m := by
  induction m with
  | nil => rfl
  | cons e m ih =>
    rw [insertBefore]
    split
    · rw [totalSize_cons]
    · rw [totalSize_cons, totalSize_cons, ih]
      omega

theorem totalSize_jsonObject_le (size : List UInt8 × JsonValue N → Nat)
    (entries : List (List UInt8 × JsonValue N)) :
    totalSize size (jsonObject entries) ≤ totalSize size entries := by
  suffices ∀ m : JsonObject N, totalSize size (entries.foldl (fun m e => StdMap.emplace m e.1 e.2) m) ≤
      totalSize size m + totalSize size entries from (this []).trans (Nat.zero_add _).le
  induction entries with
  | nil => exact fun m => le_rfl
  | cons e entries ih =>
    intro m
    have hemplace : totalSize size (StdMap.emplace m e.1 e.2) ≤ size e + 1 + totalSize size m := by
      rw [StdMap.emplace]
      split
      · omega
      · rw [StdMap.totalSize_insertBefore]
    have hrest := ih (StdMap.emplace m e.1 e.2)
    rw [List.foldl_cons, totalSize_cons]
    omega

/-! ### Parsed values fit -/

/-- A number takes a character. -/
def OneOrMore : Grammar UInt8 N := fun t _ t' => ∃ w, t = w ++ t' ∧ 1 ≤ w.length

theorem StringToken.room {raw : List UInt8} (h : StringToken t raw t') :
    ∃ w, t = w ++ t' ∧ Room (raw.length + 2) [raw] w := by
  refine ⟨[ch '"'] ++ (raw ++ [ch '"']), by simp [h.text_eq], ?_, ?_⟩
  · simp
  · simp only [List.mem_singleton, forall_eq]
    exact ⟨[ch '"'], [ch '"'], by simp⟩

theorem fits_entryOf {e : List UInt8 × JsonValue N}
    (h : EntryOf (Fits JsonValue.size JsonValue.strings) t e t') : Fits entrySize entryStrings t e t' := by
  obtain ⟨t₁, t₂, hkey, hsep, hval⟩ := h
  obtain ⟨w, rfl, hw⟩ := StringToken.room hkey
  obtain ⟨w₁, rfl, hw₁⟩ := Separates.room hsep
  obtain ⟨w₂, rfl, hw₂⟩ := hval
  exact ⟨w ++ (w₁ ++ w₂), by simp, (hw.append (hw₁.append hw₂)).mono (by rw [entrySize]; omega)
    fun raw hraw => hraw⟩

theorem fits_of_grammar {a : JsonAlternative}
    (h : a.grammar OneOrMore (Fits JsonValue.size JsonValue.strings) t v t') :
    Fits JsonValue.size JsonValue.strings t v t' := by
  cases a with
  | null =>
    obtain ⟨rfl, rfl⟩ := h
    exact ⟨_, rfl, .of_length le_rfl⟩
  | boolean =>
    obtain ⟨b, rfl, rfl⟩ := h
    exact ⟨_, rfl, .of_length le_rfl⟩
  | number =>
    obtain ⟨x, ⟨w, rfl, hw⟩, rfl⟩ := h
    exact ⟨w, rfl, .of_length hw⟩
  | string =>
    obtain ⟨raw, hraw, rfl⟩ := h
    exact hraw.room
  | array =>
    obtain ⟨vs, hvs, rfl⟩ := h
    obtain ⟨w, rfl, hw⟩ := Bracketed.fits hvs
    refine ⟨w, rfl, ?_⟩
    rw [JsonValue.size, JsonValue.strings, sizeArray_eq, stringsArray_eq]
    exact hw
  | object =>
    obtain ⟨entries, ⟨t₁, t₂, hopen, hlist, hclose⟩, rfl⟩ := h
    have hentries : Bracketed (.charLiteral (ch '{')) (.charLiteral (ch ',')) (.charLiteral (ch '}'))
        (Fits entrySize entryStrings) t entries t' :=
      ⟨t₁, t₂, hopen, hlist.mono fun _ _ _ => fits_entryOf, hclose⟩
    obtain ⟨w, rfl, hw⟩ := Bracketed.fits hentries
    refine ⟨w, rfl, ?_⟩
    rw [JsonValue.size, JsonValue.strings, sizeObject_eq, stringsObject_eq]
    -- the map drops the entries with repeated keys, and takes no more room without them
    refine hw.mono ?_ fun raw hraw => ?_
    · exact Nat.succ_le_succ (max_le_max le_rfl (totalSize_jsonObject_le entrySize entries))
    · obtain ⟨e, he, hraw⟩ := List.mem_flatMap.1 hraw
      exact List.mem_flatMap.2 ⟨e, mem_of_mem_jsonObject he, hraw⟩

variable [Inhabited N] {fc : FromChars (double N)}

theorem fits_of_derives (h : Derives (readNumber fc) t v t') :
    Fits JsonValue.size JsonValue.strings t v t' := by
  refine (derives_least (P := fun _ => True) (fun t x t' hx => ?_) (fun _ _ => trivial)
    (fun a t v t' => fits_of_grammar) h).2 trivial
  obtain ⟨n, hn, rfl⟩ := hx
  obtain ⟨hpos, hle⟩ := fc.read_le hn
  refine ⟨by rw [List.length_drop]; omega, fun _ => ?_⟩
  exact ⟨t.take n, (List.take_append_drop n t).symm, by rw [List.length_take]; omega⟩

/-- The value that `parse_json` returns has room in the text that it takes, and its strings and keys are
pieces of this text. -/
theorem parseJson_fits (hnum : NumberGrammar (readNumber fc)) (hst : st.IsInput mem)
    (h : (parseJson mem fc).run st = some (some (st', v))) :
    ∃ w, st.text mem = w ++ st'.text mem ∧ v.size ≤ w.length ∧ ∀ raw ∈ v.strings, raw <:+: w := by
  by_cases hgood : st.good = true
  · have hshows := hst.shows hgood
    obtain ⟨w, t', ht, rfl, a, a', t₁, ht₁, hder, -⟩ :=
      (recognizes_parseJson mem hnum).sound trivial hshows h
    obtain ⟨w₁, rfl, hroom⟩ := fits_of_derives hder
    have htext : (st.removePrefix w.length).text mem = t' := by
      rw [ht] at hshows
      exact hshows.drop.text
    refine ⟨a.1 ++ (w₁ ++ a'.1), ?_, ?_, fun raw hraw => ?_⟩
    · show _ = _ ++ (st.removePrefix w.length).text mem
      rw [htext, ht₁]
      simp
    · have hle := hroom.le_length
      simp only [List.length_append]
      omega
    · exact (hroom.infix_text raw hraw).trans ⟨a.1, a'.1, by simp⟩
  · rw [parseJson_fails_nil hst.valid (hst.text_eq_nil hgood)] at h
    cases h

/-- In `{"a":["b"],"a":1}` the second entry is dropped; what is kept needs 11 of the 17 characters. -/
theorem parseJson_fits_object :
    let text := [ch '{', ch '"', ch 'a', ch '"', ch ':', ch '[', ch '"', ch 'b', ch '"', ch ']', ch ',', ch '"',
      ch 'a', ch '"', ch ':', ch '1', ch '}']
    let v : JsonValue Nat := .object [([ch 'a'], .array [.string [ch 'b']])]
    ∃ st' w, (parseJson (Memory.ofText text) digitsFromChars).run (State.ofLength 17) = some (some (st', v)) ∧
      (State.ofLength 17).text (Memory.ofText text) = w ++ st'.text (Memory.ofText text) ∧
      v.size = 11 ∧ 11 ≤ w.length ∧ [ch 'a'] <:+: w ∧ [ch 'b'] <:+: w := by
  intro text v
  have hst : (State.ofLength 17).Shows (Memory.ofText text) text := State.shows_ofText text
  have hnum : NumberGrammar (readNumber digitsFromChars) := numberTokens_digits.numberGrammar
  let second := [ch '"', ch 'a', ch '"', ch ':', ch '1', ch '}']
  have harray : Derives (readNumber digitsFromChars) ([ch '[', ch '"', ch 'b', ch '"', ch ']', ch ','] ++ second)
      (.array [.string [ch 'b']]) (ch ',' :: second) :=
    .array ⟨Blank.none, rfl⟩ (.cons (.string (stringToken_char (by decide) (by decide) _)) (.nil _))
      ⟨Blank.none, rfl⟩
  have hfirst : DerivesEntry (readNumber digitsFromChars) text.tail ([ch 'a'], .array [.string [ch 'b']])
      (ch ',' :: second) :=
    .mk (stringToken_char (by decide) (by decide) _) ⟨Blank.none, Blank.none, rfl⟩ harray
  have hsecond : DerivesEntry (readNumber digitsFromChars) second ([ch 'a'], .number 1) [ch '}'] :=
    .mk (stringToken_char (by decide) (by decide) _) ⟨Blank.none, Blank.none, rfl⟩
      (.number (readNumber_digit (by decide) (by decide) _))
  have hsep : Separates (.charLiteral (ch ',')) (ch ',' :: second) () second := ⟨Blank.none, Blank.none, rfl⟩
  have hvalue : Derives (readNumber digitsFromChars) text
      (.object (jsonObject [([ch 'a'], .array [.string [ch 'b']]), ([ch 'a'], .number 1)])) [] :=
    .object ⟨Blank.none, rfl⟩ (.cons hfirst (.cons hsep hsecond (.nil _))) ⟨Blank.none, rfl⟩
  have hrun := parseJson_of_derives hnum hst ⟨Blank.none, Blank.none, _, rfl, hvalue, rfl⟩
  obtain ⟨w, htext, hsize, hstrings⟩ := parseJson_fits hnum ⟨hst.valid, fun _ => hst.good⟩ hrun
  exact ⟨_, w, hrun, htext, rfl, hsize, hstrings _ (by decide), hstrings _ (by decide)⟩

end Noam
