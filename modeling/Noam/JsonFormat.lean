import Noam.JsonAccepts

/-!
# Printing JSON values (`json_value.hpp`)

The formatter appends to the output and passes one indentation string to all of its recursive calls. Each
call leaves the indentation as it found it, and what it appends derives the value again, except that an
object without entries is printed as `[]`.
-/

namespace Noam
open GetResult ValueType Attempt Loop Framing Recognition

variable {N : Type} {mem : Memory} {st : State} {t t' : List UInt8} {v : JsonValue N}

/-- `ctx.out()` and the indentation `depth`, both passed by reference. -/
structure FormatState where
  out : List UInt8
  depth : List UInt8

namespace FormatState

/-- `format_to(ctx.out(), text)` -/
def formatTo (s : FormatState) (text : List UInt8) : FormatState := { s with out := s.out ++ text }

/-- `depth += "    "` -/
def indent (s : FormatState) : FormatState :=
  { s with depth := s.depth ++ [ch ' ', ch ' ', ch ' ', ch ' '] }

/-- `if (depth.size() >= 4) depth.resize(depth.size() - 4)` -/
def dedent (s : FormatState) : FormatState :=
  if s.depth.length ≥ 4 then { s with depth := s.depth.take (s.depth.length - 4) } else s

end FormatState

mutual

/-- `formatter<json_value>::format(depth, v, ctx)`, where `fmt` prints a `double`. -/
def format (fmt : N → List UInt8) : JsonValue N → FormatState → FormatState
  | .null, s => s.formatTo [ch 'n', ch 'u', ch 'l', ch 'l']
  | .boolean b, s => s.formatTo (booleanLiteral b)
  | .number x, s => s.formatTo (fmt x)
  | .string sv, s => s.formatTo ([ch '"'] ++ sv ++ [ch '"'])
  | .array arr, s =>
    if arr.isEmpty then s.formatTo [ch '[', ch ']']
    else formatArray fmt arr (s.formatTo [ch '['])
  | .object obj, s =>
    if obj.isEmpty then s.formatTo [ch '[', ch ']']
    else
      let s := (formatObject fmt obj ((s.formatTo [ch '{', ch '\n']).indent)).dedent
      s.formatTo ([ch '\n'] ++ s.depth ++ [ch '}'])

/-- The loop over the elements of an array. -/
def formatArray (fmt : N → List UInt8) : List (JsonValue N) → FormatState → FormatState
  | [], s => s
  | v :: vs, s =>
    let s := format fmt v s
    if vs.isEmpty then s.formatTo [ch ']'] else formatArray fmt vs (s.formatTo [ch ',', ch ' '])

/-- The loop over the entries of an object. -/
def formatObject (fmt : N → List UInt8) : List (List UInt8 × JsonValue N) → FormatState → FormatState
  | [], s => s
  | (key, val) :: entries, s =>
    let s := format fmt val (s.formatTo (s.depth ++ [ch '"'] ++ key ++ [ch '"', ch ':', ch ' ']))
    if entries.isEmpty then s else formatObject fmt entries (s.formatTo [ch ',', ch '\n'])

end

/-- `formatter<json_value>::format(v, ctx)` -/
def formatValue (fmt : N → List UInt8) (v : JsonValue N) : List UInt8 := (format fmt v ⟨[], []⟩).out

/-! ### Objects without entries -/

theorem JsonValue.induction {P : JsonValue N → Prop} (null : P .null) (string : ∀ sv, P (.string sv))
    (number : ∀ x, P (.number x)) (boolean : ∀ b, P (.boolean b))
    (object : ∀ entries : List (List UInt8 × JsonValue N), (∀ e ∈ entries, P e.2) → P (.object entries))
    (array : ∀ vs, (∀ v ∈ vs, P v) → P (.array vs)) (v : JsonValue N) : P v := by
  refine @JsonValue.rec N P (fun entries => ∀ e ∈ entries, P e.2) (fun vs => ∀ v ∈ vs, P v)
    (fun e => P e.2) null string number boolean object array ?_ ?_ ?_ ?_ ?_ v
  · simp
  · exact fun e entries he hentries => List.forall_mem_cons.2 ⟨he, hentries⟩
  · simp
  · exact fun v vs hv hvs => List.forall_mem_cons.2 ⟨hv, hvs⟩
  · exact fun _ _ h => h

mutual

/-- A value with an array in the place of every object without entries. -/
def emptied : JsonValue N → JsonValue N
  | .null => .null
  | .string sv => .string sv
  | .number x => .number x
  | .boolean b => .boolean b
  | .object obj => if obj.isEmpty then .array [] else .object (emptiedObject obj)
  | .array arr => .array (emptiedArray arr)

def emptiedObject : List (List UInt8 × JsonValue N) → List (List UInt8 × JsonValue N)
  | [] => []
  | (key, val) :: entries => (key, emptied val) :: emptiedObject entries

def emptiedArray : List (JsonValue N) → List (JsonValue N)
  | [] => []
  | v :: vs => emptied v :: emptiedArray vs

end

theorem emptied_array (vs : List (JsonValue N)) : emptied (.array vs) = .array (vs.map emptied) := by
  rw [emptied]
  congr
  induction vs with
  | nil => rfl
  | cons v vs ih => rw [emptiedArray, ih, List.map_cons]

theorem emptied_object {entries : List (List UInt8 × JsonValue N)} (hne : entries ≠ []) :
    emptied (.object entries) = .object (entries.map fun e => (e.1, emptied e.2)) := by
  rw [emptied, if_neg (by simpa using hne)]
  congr
  clear hne
  induction entries with
  | nil => rfl
  | cons e entries ih => rw [emptiedObject, ih, List.map_cons]

/-- No object in the value is without entries. -/
inductive NoEmptyObject : JsonValue N → Prop
  | null : NoEmptyObject .null
  | string (sv : List UInt8) : NoEmptyObject (.string sv)
  | number (x : N) : NoEmptyObject (.number x)
  | boolean (b : Bool) : NoEmptyObject (.boolean b)
  | object {entries : List (List UInt8 × JsonValue N)} (hne : entries ≠ [])
      (h : ∀ e ∈ entries, NoEmptyObject e.2) : NoEmptyObject (.object entries)
  | array {vs : List (JsonValue N)} (h : ∀ v ∈ vs, NoEmptyObject v) : NoEmptyObject (.array vs)

theorem map_eq_self_iff {β : Type} {f : β → β} {l : List β} : l.map f = l ↔ ∀ b ∈ l, f b = b := by
  simpa using List.map_inj_left (f := f) (g := id) (l := l)

theorem emptied_eq_self_iff (v : JsonValue N) : emptied v = v ↔ NoEmptyObject v := by
  induction v using JsonValue.induction with
  | null => simp [emptied, NoEmptyObject.null]
  | string sv => simp [emptied, NoEmptyObject.string]
  | number x => simp [emptied, NoEmptyObject.number]
  | boolean b => simp [emptied, NoEmptyObject.boolean]
  | object entries ih =>
    -- an object without entries becomes an array
    by_cases hne : entries = []
    · subst hne
      constructor
      · intro h; cases h
      · intro h; cases h with
        | object hne _ => exact absurd rfl hne
    · have hmap : entries.map (fun e => (e.1, emptied e.2)) = entries ↔
          ∀ e ∈ entries, emptied e.2 = e.2 := by
        rw [map_eq_self_iff]
        simp [Prod.ext_iff]
      rw [emptied_object hne, JsonValue.object.injEq, hmap]
      constructor
      · intro h
        exact .object hne fun e he => (ih e he).1 (h e he)
      · intro h; cases h with
        | object _ h => exact fun e he => (ih e he).2 (h e he)
  | array vs ih =>
    rw [emptied_array, JsonValue.array.injEq, map_eq_self_iff]
    constructor
    · intro h
      exact .array fun v hv => (ih v hv).1 (h v hv)
    · intro h; cases h with
      | array h => exact fun v hv => (ih v hv).2 (h v hv)

/-! ### Views and maps -/

/-- A raw view that `parse_string_view` returns for some text. -/
def RawView (raw : List UInt8) : Prop := ∃ (mem : Memory) (st st' : State),
  st.IsInput mem ∧ (parseStringView mem).run st = some (some (st', raw))

theorem parseStringView_fails_nil (hv : st.Valid) (ht : st.text mem = []) :
    (parseStringView mem).run st = some none := by
  rw [parseStringView, (viewParser_reads _ _ _).run_eq hv, ht]; rfl

theorem rawView_iff {raw : List UInt8} : RawView raw ↔ ∃ t t', StringToken t raw t' := by
  constructor
  · rintro ⟨mem, st, st', hst, hrun⟩
    have hgood : st.good = true := by
      refine hst.good fun hnil => ?_
      rw [parseStringView_fails_nil hst.valid hnil] at hrun
      cases hrun
    obtain ⟨w, t', -, -, h⟩ := (recognizes_string mem).sound trivial (hst.shows hgood) hrun
    exact ⟨_, t', h⟩
  · rintro ⟨t, t', h⟩
    have hst := State.shows_ofText t
    obtain ⟨w, -, hrun⟩ := (recognizes_string (Memory.ofText t)).parses trivial hst h
    exact ⟨_, _, _, ⟨hst.valid, fun _ => hst.good⟩, hrun⟩

theorem RawView.token {raw : List UInt8} (h : RawView raw) (t : List UInt8) :
    StringToken (ch '"' :: (raw ++ ch '"' :: t)) raw t := by
  obtain ⟨t₁, t₁', h⟩ := rawView_iff.1 h
  exact ⟨rfl, h.units.congr_head rfl⟩

theorem jsonObject_of_sorted {entries : List (List UInt8 × JsonValue N)} (h : StdMap.Sorted entries) :
    jsonObject entries = entries := StdMap.foldl_emplace_eq (m := []) h

theorem sorted_jsonObject (entries : List (List UInt8 × JsonValue N)) :
    StdMap.Sorted (jsonObject entries) :=
  StdMap.Sorted.foldl_emplace (m := []) List.Pairwise.nil entries

theorem mem_of_mem_jsonObject {entries : List (List UInt8 × JsonValue N)} {e : List UInt8 × JsonValue N}
    (h : e ∈ jsonObject entries) : e ∈ entries :=
  (StdMap.mem_foldl_emplace (m := []) h).resolve_left List.not_mem_nil

/-- The strings and keys of the value are raw views, and the entries of its maps are in order. -/
inductive Printable : JsonValue N → Prop
  | null : Printable .null
  | string {sv : List UInt8} (h : RawView sv) : Printable (.string sv)
  | number (x : N) : Printable (.number x)
  | boolean (b : Bool) : Printable (.boolean b)
  | object {entries : List (List UInt8 × JsonValue N)} (hsorted : StdMap.Sorted entries)
      (hkeys : ∀ e ∈ entries, RawView e.1) (h : ∀ e ∈ entries, Printable e.2) :
      Printable (.object entries)
  | array {vs : List (JsonValue N)} (h : ∀ v ∈ vs, Printable v) : Printable (.array vs)

/-! ### What the formatter appends -/

/-- Nothing, or one of the characters that the formatter puts behind a value. -/
def FollowsValue (t : List UInt8) : Prop := ∀ c ∈ t.head?, c ∈ [ch ',', ch '\n', ch ']', ch '}']

/-- `fmt` prints numbers as `std::from_chars` reads them, which reads numbers as they should start. -/
structure PrintsNumbers [Inhabited N] (fmt : N → List UInt8) (fc : FromChars (double N)) : Prop where
  grammar : NumberGrammar (readNumber fc)
  reads : ∀ x t, FollowsValue t → fc.fromChars (fmt x ++ t) = some ((fmt x).length, x)

/-- A call appends `w` to the output and leaves the indentation as it found it. -/
def Appends (f : FormatState → FormatState) (depth w : List UInt8) : Prop :=
  ∀ out, f ⟨out, depth⟩ = ⟨out ++ w, depth⟩

/-- What the formatter appends for `v` derives it, with arrays in the place of empty objects. -/
def Prints (fmt : N → List UInt8) (num : Grammar UInt8 N) (depth : List UInt8) (v : JsonValue N) :
    Prop :=
  ∃ w, Appends (format fmt v) depth w ∧ ∀ t, FollowsValue t → Derives num (w ++ t) (emptied v) t

/-- A line break in front of an indentation. -/
def Blank.newline (depth : Blank) : Blank := Blank.append (Blank.single (ch '\n') (by decide)) depth

/-- The four characters that an object adds to the indentation. -/
def Blank.indent (depth : Blank) : Blank :=
  depth.append ⟨List.replicate 4 (ch ' '), fun c hc => by rw [List.eq_of_mem_replicate hc]; decide⟩

theorem dedent_indent (out : List UInt8) (depth : Blank) :
    FormatState.dedent ⟨out, depth.indent.1⟩ = ⟨out, depth.1⟩ := by
  simp [FormatState.dedent, Blank.indent, Blank.append]

section
variable {fmt : N → List UInt8} {num : Grammar UInt8 N} {depth : Blank}

/-- The loop over the elements and the closing bracket. -/
theorem formatArray_appends {vs : List (JsonValue N)} (hne : vs ≠ [])
    (h : ∀ v ∈ vs, Prints fmt num depth.1 v) : ∃ w, Appends (formatArray fmt vs) depth.1 w ∧
      ∀ t, SepList (Separates (.charLiteral (ch ','))) (Derives num) (w ++ t) (vs.map emptied)
        (ch ']' :: t) := by
  induction vs with
  | nil => exact absurd rfl hne
  | cons v vs ih =>
    obtain ⟨⟨w, happ, hder⟩, hvs⟩ := List.forall_mem_cons.1 h
    by_cases hlast : vs = []
    · subst hlast
      refine ⟨w ++ [ch ']'], fun out => ?_, fun t => ?_⟩
      · simp [formatArray, happ _, FormatState.formatTo]
      · have helem := hder (ch ']' :: t) (by simp [FollowsValue])
        rw [List.append_assoc]
        exact .cons helem (.nil _)
    · obtain ⟨w', happ', hlist⟩ := ih hlast hvs
      refine ⟨w ++ ([ch ',', ch ' '] ++ w'), fun out => ?_, fun t => ?_⟩
      · simp [formatArray, happ _, happ' _, FormatState.formatTo, hlast]
      · have helem := hder (ch ',' :: ch ' ' :: (w' ++ t)) (by simp [FollowsValue])
        have hsep : Separates (.charLiteral (ch ',')) (ch ',' :: ch ' ' :: (w' ++ t)) () (w' ++ t) :=
          ⟨Blank.none, Blank.single (ch ' ') (by decide), rfl⟩
        rw [List.append_assoc, List.append_assoc]
        exact .cons_sep helem hsep (by simpa using hlast) (hlist t)

/-- The loop over the entries; the first one is indented too. -/
theorem formatObject_appends {entries : List (List UInt8 × JsonValue N)} (hne : entries ≠ [])
    (hkeys : ∀ e ∈ entries, RawView e.1) (h : ∀ e ∈ entries, Prints fmt num depth.1 e.2) :
    ∃ w, Appends (formatObject fmt entries) depth.1 (depth.1 ++ w) ∧ ∀ t, FollowsValue t →
      SepList (Separates (.charLiteral (ch ','))) (DerivesEntry num) (w ++ t)
        (entries.map fun e => (e.1, emptied e.2)) t := by
  induction entries with
  | nil => exact absurd rfl hne
  | cons e entries ih =>
    obtain ⟨key, val⟩ := e
    obtain ⟨hkey, hkeys⟩ := List.forall_mem_cons.1 hkeys
    obtain ⟨hval, hvals⟩ := List.forall_mem_cons.1 h
    obtain ⟨w, happ, hder⟩ : Prints fmt num depth.1 val := hval
    -- the key, the colon with a blank behind it, and the value
    have hentry : ∀ t, FollowsValue t → DerivesEntry num
        (ch '"' :: (key ++ ch '"' :: ch ':' :: ch ' ' :: (w ++ t))) (key, emptied val) t := by
      intro t ht
      have hsep : Separates (.charLiteral (ch ':')) (ch ':' :: ch ' ' :: (w ++ t)) () (w ++ t) :=
        ⟨Blank.none, Blank.single (ch ' ') (by decide), rfl⟩
      exact .mk (hkey.token _) hsep (hder t ht)
    by_cases hlast : entries = []
    · subst hlast
      refine ⟨ch '"' :: (key ++ ch '"' :: ch ':' :: ch ' ' :: w), fun out => ?_, fun t ht => ?_⟩
      · simp [formatObject, happ _, FormatState.formatTo]
      · have hlist := SepList.cons (S := Separates (.charLiteral (ch ','))) (hentry t ht) (.nil t)
        simpa using hlist
    · obtain ⟨w', happ', hlist⟩ := ih hlast hkeys hvals
      refine ⟨ch '"' :: (key ++ ch '"' :: ch ':' :: ch ' ' ::
        (w ++ ch ',' :: ch '\n' :: (depth.1 ++ w'))), fun out => ?_, fun t ht => ?_⟩
      · simp [formatObject, happ _, happ' _, FormatState.formatTo, hlast]
      · have hfollows : FollowsValue (ch ',' :: ch '\n' :: (depth.1 ++ (w' ++ t))) := by
          simp [FollowsValue]
        have hsep : Separates (.charLiteral (ch ',')) (ch ',' :: ch '\n' :: (depth.1 ++ (w' ++ t))) ()
            (w' ++ t) := ⟨Blank.none, depth.newline, rfl⟩
        have hcons := (hlist t ht).cons_sep (hentry _ hfollows) hsep (by simpa using hlast)
        simpa using hcons

theorem prints_array {vs : List (JsonValue N)} (h : ∀ v ∈ vs, Prints fmt num depth.1 v) :
    Prints fmt num depth.1 (.array vs) := by
  unfold Prints
  rw [emptied_array]
  by_cases hne : vs = []
  · subst hne
    refine ⟨[ch '[', ch ']'], fun out => rfl, fun t _ => ?_⟩
    exact .array ⟨Blank.none, rfl⟩ (.nil _) ⟨Blank.none, rfl⟩
  · obtain ⟨w, happ, hlist⟩ := formatArray_appends hne h
    refine ⟨ch '[' :: w, fun out => ?_, fun t _ => ?_⟩
    · simp [format, hne, FormatState.formatTo, happ _]
    · exact .array ⟨Blank.none, rfl⟩ (hlist t) ⟨Blank.none, rfl⟩

theorem prints_object {entries : List (List UInt8 × JsonValue N)} (hsorted : StdMap.Sorted entries)
    (hkeys : ∀ e ∈ entries, RawView e.1) (h : ∀ e ∈ entries, Prints fmt num depth.indent.1 e.2) :
    Prints fmt num depth.1 (.object entries) := by
  unfold Prints
  by_cases hne : entries = []
  · -- `[]` is printed for an object without entries too
    subst hne
    refine ⟨[ch '[', ch ']'], fun out => rfl, fun t _ => ?_⟩
    exact .array ⟨Blank.none, rfl⟩ (.nil _) ⟨Blank.none, rfl⟩
  · obtain ⟨w, happ, hlist⟩ := formatObject_appends hne hkeys h
    refine ⟨ch '{' :: ch '\n' :: (depth.indent.1 ++ (w ++ ch '\n' :: (depth.1 ++ [ch '}']))),
      fun out => ?_, fun t _ => ?_⟩
    · have hloop := happ (out ++ [ch '{', ch '\n'])
      have hindent : ((⟨out, depth.1⟩ : FormatState).formatTo [ch '{', ch '\n']).indent =
          ⟨out ++ [ch '{', ch '\n'], depth.indent.1⟩ := rfl
      rw [format, if_neg (by simpa using hne), hindent, hloop, dedent_indent]
      simp [FormatState.formatTo]
    · have hsorted' : StdMap.Sorted (entries.map fun e => (e.1, emptied e.2)) :=
        List.pairwise_map.2 hsorted
      rw [emptied_object hne, ← jsonObject_of_sorted hsorted']
      have hfollows : FollowsValue (ch '\n' :: (depth.1 ++ ch '}' :: t)) := by simp [FollowsValue]
      have hopen : Opens (.charLiteral (ch '{')) (ch '{' :: ch '\n' :: (depth.indent.1 ++
          (w ++ ch '\n' :: (depth.1 ++ ch '}' :: t)))) () (w ++ ch '\n' :: (depth.1 ++ ch '}' :: t)) :=
        ⟨depth.indent.newline, by simp [Blank.newline, Blank.append, Blank.single, AnyLiteral.text]⟩
      have hclose : Closes (.charLiteral (ch '}')) (ch '\n' :: (depth.1 ++ ch '}' :: t)) () t :=
        ⟨depth.newline, by simp [Blank.newline, Blank.append, Blank.single, AnyLiteral.text]⟩
      simpa using Derives.object hopen (hlist _ hfollows) hclose

/-- The formatter prints every value at every indentation. -/
theorem format_prints [Inhabited N] {fc : FromChars (double N)} (hp : PrintsNumbers fmt fc)
    (h : Printable v) (depth : Blank) : Prints fmt (readNumber fc) depth.1 v := by
  induction h generalizing depth with
  | null => exact ⟨nullLiteral.text, fun _ => rfl, fun t _ => .null t⟩
  | @string sv h =>
    refine ⟨ch '"' :: (sv ++ [ch '"']), fun _ => rfl, fun t _ => .string ?_⟩
    simpa using h.token t
  | number x =>
    exact ⟨fmt x, fun _ => rfl, fun t ht => .number ⟨_, hp.reads x t ht, List.drop_left.symm⟩⟩
  | boolean b => exact ⟨booleanLiteral b, fun _ => rfl, fun t _ => .boolean b t⟩
  | object hsorted hkeys _ ih => exact prints_object hsorted hkeys fun e he => ih e he depth.indent
  | array _ ih => exact prints_array fun v hv => ih v hv depth

end

end Noam
