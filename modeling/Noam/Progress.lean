import Noam.Refinement

/-!
# Progress and termination on valid states

`Takes n A` says that a success on a valid state leaves a suffix that is at least `n` characters
shorter. It is what bounds the rounds of a repetition and the depth of a recursion: a non-empty literal
takes characters, and what follows it gets a strictly shorter state.
-/

namespace Noam
open GetResult ValueType Attempt

variable {V W : ValueType} {g g' : Bool} {gs : List Bool} {Vs : List ValueType} {α β : Type}
variable {mem : Memory} {st st' : State} {n m : Nat}

def Takes (n : Nat) (A : Attempt State α) : Prop :=
  ∀ st st' a, st.Valid → A st = some (some (st', a)) → st'.Suffix st ∧ st._begin + n ≤ st'._begin

theorem takes_zero {p : Parser g V} : Takes 0 p.run ↔ p.SuffixReturning := by
  constructor
  · intro h st hv st' v hr
    exact (h st st' v hv hr).1
  · intro h st st' v hv hr
    have hs := h st hv st' v hr
    exact ⟨hs, hs.begin_le⟩

theorem Takes.mono {A : Attempt State α} (h : Takes n A) (hm : m ≤ n) : Takes m A := by
  intro st st' a hv hr
  obtain ⟨hs, hle⟩ := h st st' a hv hr
  exact ⟨hs, by omega⟩

theorem takes_pure (a : α) : Takes 0 (Attempt.pure a) := by
  intro st st' b hv h
  cases h
  exact ⟨.refl hv, Nat.le_refl _⟩

theorem Takes.bind {A : Attempt State α} {k : α → Attempt State β} (h : Takes n A)
    (hk : ∀ a, Takes m (k a)) : Takes (n + m) (bind A k) := by
  intro st st' b hv hr
  obtain ⟨st₁, a, h₁, h₂⟩ := bind_eq_some hr
  obtain ⟨hs₁, hle₁⟩ := h st st₁ a hv h₁
  obtain ⟨hs₂, hle₂⟩ := hk a st₁ st' b hs₁.valid h₂
  exact ⟨hs₁.trans hs₂, by omega⟩

theorem Takes.map {A : Attempt State α} (h : Takes n A) (f : α → β) : Takes n (Attempt.map f A) :=
  h.bind fun a => takes_pure (f a)

theorem Takes.orElse {A B : Attempt State α} (hA : Takes n A) (hB : Takes n B) :
    Takes n (orElse A B) := by
  intro st st' a hv h
  rcases hAst : A st with _ | _ | x
  · rw [orElse_none hAst] at h; cases h
  · rw [orElse_fail hAst] at h; exact hB st st' a hv h
  · rw [orElse_some hAst] at h
    exact hA st st' a hv (hAst.trans h)

theorem Takes.iterate {k : α → Attempt State α} (hk : ∀ a, Takes 0 (k a)) (a : α) :
    Takes 0 (iterate k a) := by
  intro st st' a' hv h
  refine iterate_induct (motive := fun st _ st' _ => st.Valid → st'.Suffix st ∧ st._begin + 0 ≤ st'._begin)
    (fun st _ _ hv => ⟨.refl hv, Nat.le_refl _⟩) (fun st a st₁ a₁ st' _ hstep _ ih hv => ?_) h hv
  obtain ⟨hs₁, hle₁⟩ := hk a st st₁ a₁ hv hstep
  obtain ⟨hs, hle⟩ := ih hs₁.valid
  exact ⟨hs₁.trans hs, by omega⟩

theorem Takes.sepBy {X : Type} {sep : Attempt State α} {elem : Attempt State β} {push : X → β → X}
    (hsep : Takes 0 sep) (helem : Takes 0 elem) (x : X) : Takes 0 (sepBy sep elem push x) := by
  refine Takes.orElse (helem.bind (m := 0) fun b => ?_) (takes_pure x)
  exact Takes.iterate (fun y => (hsep.bind fun _ => helem).map (push y)) (push x b)

/-! ### Parsers given by attempts -/

theorem eq_of_run_ofAttempt {A : Attempt State V} {x : State × V}
    (h : (Parser.ofAttempt g A).run st = some (some x)) : A st = some (some x) := by
  rw [run_ofAttempt] at h
  obtain ⟨o, ho, h⟩ := Option.bind_eq_some_iff.1 h
  rcases o with _ | ⟨st', v⟩
  · cases g <;> cases h
  · rw [settle, Option.some.injEq] at h
    split at h
    · rw [ho, h]
    · cases h

theorem Takes.ofAttempt {A : Attempt State V} (h : Takes n A) :
    Takes n (Parser.ofAttempt g A).run :=
  fun st st' v hv hr => h st st' v hv (eq_of_run_ofAttempt hr)

theorem total_ofAttempt {D : State → Prop} {A : Attempt State V} (h : Total D A)
    (hg : g = true → NeverFails A) : Total D (Parser.ofAttempt g A).run := by
  intro st hst
  obtain ⟨o, ho⟩ := Option.isSome_iff_exists.1 (h st hst)
  rw [run_ofAttempt, ho]
  rcases o with _ | ⟨st', v⟩
  · cases g
    · rfl
    · exact absurd ho (hg rfl st)
  · rfl

theorem approx_ofAttempt {D D' : State → Prop} {A B : Attempt State V} (h : Approx D D' A B) :
    Approx D D' (Parser.ofAttempt g A).run (Parser.ofAttempt g B).run := by
  intro st o hst ho
  have hrun := ho
  rw [run_ofAttempt] at ho
  obtain ⟨x, hx, ho⟩ := Option.bind_eq_some_iff.1 ho
  obtain ⟨hB, hD'⟩ := h st x hst hx
  refine ⟨by rw [run_ofAttempt, hB]; exact ho, ?_⟩
  rintro y rfl
  exact hD' y (Option.some.inj (hx.symm.trans (eq_of_run_ofAttempt hrun)))

/-! ### Intrinsic parsers -/

theorem Parser.Reads.run_eq {p : Parser g V} {F : OnText V} (h : p.Reads mem F) (hv : st.Valid) :
    p.run st = (F (st.text mem)).bind fun x => settle g (x.map fun y => (st.removePrefix y.1, y.2)) := by
  let A : Attempt State V := fun st =>
    (F (st.text mem)).map (Option.map fun y => (st.removePrefix y.1, y.2))
  have hp : p.parse st = (Parser.ofAttempt g A).parse st := by
    rw [h.parse_eq st hv, Parser.parse_ofAttempt, Option.bind_map]; rfl
  have hrun : p.run st = (Parser.ofAttempt g A).run st := by rw [Parser.run, hp]; rfl
  rw [hrun, run_ofAttempt, Option.bind_map]; rfl

/-- On a non-null state a parser of texts leaves what it takes off, whatever its result type. -/
theorem Parser.Reads.run_of_good {p : Parser g V} {F : OnText V} (h : p.Reads mem F)
    (hv : st.Valid) (hst : st.good = true) {k : Nat} {v : V}
    (hF : F (st.text mem) = some (some (k, v))) : p.run st = some (some (st.removePrefix k, v)) := by
  rw [h.run_eq hv, hF, Option.bind_some, Option.map_some, settle_of_good (State.good_removePrefix hst k)]

theorem Parser.Reads.takes {p : Parser g V} {F : OnText V} (h : p.Reads mem F)
    (hF : ∀ text k v, F text = some (some (k, v)) → n ≤ k) : Takes n p.run := by
  intro st st' v hv hr
  have hs := h.suffix st hv st' v hr
  rw [h.run_eq hv] at hr
  obtain ⟨o, ho, hr⟩ := Option.bind_eq_some_iff.1 hr
  rcases o with _ | ⟨k, w⟩
  · cases g <;> cases hr
  · rw [Option.map_some, settle, Option.some.injEq] at hr
    split at hr
    · cases hr
      have hk := hF _ k _ ho
      exact ⟨hs, Nat.add_le_add_left hk _⟩
    · cases hr

theorem Parser.Reads.total {p : Parser g V} {F : OnText V} (h : p.Reads mem F)
    (hF : ∀ text, (F text).isSome) (hg : g = true → ∀ text, F text ≠ some none) :
    Total State.Valid p.run := by
  intro st hv
  obtain ⟨o, ho⟩ := Option.isSome_iff_exists.1 (hF (st.text mem))
  rw [h.run_eq hv, ho]
  rcases o with _ | ⟨k, v⟩
  · cases g
    · rfl
    · exact absurd ho (hg rfl _)
  · rfl

theorem takes_literal (mem : Memory) (lit : AnyLiteral) : Takes lit.size (literal mem [lit]).run := by
  refine (literal_reads [lit]).takes fun text k v h => ?_
  obtain ⟨lit', hlit, heq⟩ := Option.map_eq_some_iff.1 (Option.some.inj h)
  cases heq
  have hmem := List.mem_of_find?_eq_some hlit
  rw [List.mem_singleton] at hmem
  rw [hmem]

theorem takes_whitespace (mem : Memory) : Takes 0 (whitespace mem).run :=
  (zeroOrMoreChars_reads whitespaceChars).takes fun _ _ _ _ => Nat.zero_le _

theorem total_literal (mem : Memory) (lits : List AnyLiteral) :
    Total State.Valid (literal mem lits).run :=
  (literal_reads lits).total (fun _ => rfl) (by simp)

theorem total_whitespace (mem : Memory) : Total State.Valid (whitespace mem).run :=
  (zeroOrMoreChars_reads whitespaceChars).total (fun _ => rfl) fun _ _ h => by cases h

theorem Takes.keeps {A : Attempt State α} (h : Takes n A) : Keeps State.Valid State.Valid A :=
  fun st st' a hv hr => (h st st' a hv hr).1.valid

/-! ### Lists of parsers -/

section
variable {D D' D'' : State → Prop} {p p' : Parser g V} {ps ps' : Parsers gs Vs}
variable {as as' : Alternatives W gs}

theorem takes_nil : Takes 0 Parsers.nil.runAll := takes_pure ()

theorem takes_cons (hp : Takes n p.run) (h : Takes m ps.runAll) :
    Takes (n + m) (Parsers.cons p ps).runAll := hp.bind fun _ => h.map _

theorem total_cons (hp : Total D p.run) (hk : Keeps D D' p.run) (h : Total D' ps.runAll) :
    Total D (Parsers.cons p ps).runAll := hp.bind hk fun _ => h.map _

theorem approx_cons (hp : Approx D D' p.run p'.run) (h : Approx D' D'' ps.runAll ps'.runAll) :
    Approx D D'' (Parsers.cons p ps).runAll (Parsers.cons p' ps').runAll := hp.bind fun _ => h.map _

theorem takes_match (h : Takes n ps.runAll) : Takes n (match_ ps).run := by
  rw [match_eq]
  exact (h.map _).ofAttempt

theorem total_match (h : Total D ps.runAll) : Total D (match_ ps).run := by
  rw [match_eq]
  exact total_ofAttempt (h.map _) fun hg => (ps.neverFails_runAll hg).map _

theorem takes_either (h : Takes n as.runFirst) : Takes n (either as).run := by
  rw [run_either]
  exact h.ofAttempt

theorem total_either (h : Total D as.runFirst) : Total D (either as).run := by
  rw [run_either]
  exact total_ofAttempt h (neverFails_either as)

theorem approx_either (h : Approx D D' as.runFirst as'.runFirst) :
    Approx D D' (either as).run (either as').run := by
  rw [run_either, run_either]
  exact approx_ofAttempt h

theorem takes_alternative (conv : Conversion V W) (hp : Takes n p.run) (h : Takes n as.runFirst) :
    Takes n (Alternatives.cons p conv as).runFirst := (hp.map _).orElse h

theorem total_alternative (conv : Conversion V W) (hp : Total D p.run) (h : Total D as.runFirst) :
    Total D (Alternatives.cons p conv as).runFirst := (hp.map _).orElse h

theorem approx_alternative (conv : Conversion V W) (hp : Approx D D' p.run p'.run)
    (h : Approx D D' as.runFirst as'.runFirst) :
    Approx D D' (Alternatives.cons p conv as).runFirst (Alternatives.cons p' conv as').runFirst :=
  (hp.map _).orElse h

end

/-! ### Separators and brackets -/

section
variable (mem : Memory) (lit : AnyLiteral)

theorem takes_separator : Takes lit.size (separator mem [lit]).run := by
  have h := takes_match (takes_cons (takes_whitespace mem) (takes_cons (takes_literal mem lit)
    (takes_cons (takes_whitespace mem) takes_nil)))
  exact h.mono (by omega)

theorem takes_openParser : Takes lit.size (openParser mem lit).run := by
  have h := takes_match (takes_cons (takes_literal mem lit) (takes_cons (takes_whitespace mem)
    takes_nil))
  exact h.mono (by omega)

theorem takes_closeParser : Takes lit.size (closeParser mem lit).run := by
  have h := takes_match (takes_cons (takes_whitespace mem) (takes_cons (takes_literal mem lit)
    takes_nil))
  exact h.mono (by omega)

theorem total_separator : Total State.Valid (separator mem [lit]).run :=
  total_match (total_cons (total_whitespace mem) (takes_whitespace mem).keeps
    (total_cons (total_literal mem [lit]) (takes_literal mem lit).keeps
      (total_cons (total_whitespace mem) (takes_whitespace mem).keeps (total_pure ()))))

theorem total_openParser : Total State.Valid (openParser mem lit).run :=
  total_match (total_cons (total_literal mem [lit]) (takes_literal mem lit).keeps
    (total_cons (total_whitespace mem) (takes_whitespace mem).keeps (total_pure ())))

theorem total_closeParser : Total State.Valid (closeParser mem lit).run :=
  total_match (total_cons (total_whitespace mem) (takes_whitespace mem).keeps
    (total_cons (total_literal mem [lit]) (takes_literal mem lit).keeps (total_pure ())))

end

/-! ### Strictly shorter suffixes -/

/-- `t` is a suffix of `st`, and strictly shorter. -/
def State.Below (st t : State) : Prop := t.Suffix st ∧ st._begin < t._begin

/-- The number of characters that are left. -/
def State.length (st : State) : Nat := st._end - st._begin

theorem State.Below.length_lt {t : State} (h : st.Below t) : t.length < st.length := by
  have hend := h.1.end_eq
  have hv : t._begin ≤ t._end := h.1.valid
  have hlt := h.2
  unfold State.length
  omega

theorem Takes.keeps_below {A : Attempt State α} (h : Takes n A) (st : State) :
    Keeps st.Below st.Below A := by
  intro t t' a ht hr
  obtain ⟨hs, hle⟩ := h t t' a ht.1.valid hr
  have hlt := ht.2
  exact ⟨ht.1.trans hs, by omega⟩

theorem Takes.keeps_start {A : Attempt State α} (h : Takes n A) (hn : 0 < n) (hv : st.Valid) :
    Keeps (· = st) st.Below A := by
  rintro _ t' a rfl hr
  obtain ⟨hs, hle⟩ := h _ t' a hv hr
  exact ⟨hs, by omega⟩

theorem Takes.length_le {A : Attempt State α} {a : α} (h : Takes n A) (hv : st.Valid)
    (hr : A st = some (some (st', a))) : st'.length + n ≤ st.length := by
  obtain ⟨hs, hle⟩ := h st st' a hv hr
  have hend := hs.end_eq
  have hv' : st'._begin ≤ st'._end := hs.valid
  unfold State.length
  omega

section
variable {X : Type} {A B : Attempt State V} {opening sep closing : AnyLiteral} {push : X → V → X}

theorem takes_bracketed (hA : Takes 0 A) (x : X) :
    Takes opening.size (bracketed mem opening sep closing A push x) := by
  have hsep := (takes_separator mem sep).mono (Nat.zero_le _)
  have hclose := (takes_closeParser mem closing).mono (Nat.zero_le _)
  exact (takes_openParser mem opening).bind fun _ =>
    (Takes.sepBy hsep hA x).bind fun _ => hclose.map _

/-- Brackets end when their elements do behind the opening one. -/
theorem total_bracketed (ho : 0 < opening.size) (hs : 0 < sep.size) (hv : st.Valid)
    (hA : Takes 0 A) (ht : Total st.Below A) (x : X) :
    Total (· = st) (bracketed mem opening sep closing A push x) := by
  have hvalid : ∀ t, st.Below t → t.Valid := fun t h => h.1.valid
  have hsep := takes_separator mem sep
  have helems : Total st.Below (sepBy (separator mem [sep]).run A push x) := by
    refine Total.sepBy State.length (fun t h => total_separator mem sep t (hvalid t h)) ht
      (fun t t' u h hr => ⟨hsep.keeps_below st t t' u h hr, ?_⟩)
      (fun t t' v h hr => ⟨hA.keeps_below st t t' v h hr, ?_⟩) x
    · have hle := hsep.length_le (hvalid t h) hr
      omega
    · exact hA.length_le (hvalid t h) hr
  have hkeeps : Keeps st.Below st.Below (sepBy (separator mem [sep]).run A push x) :=
    (Takes.sepBy (hsep.mono (Nat.zero_le _)) hA x).keeps_below st
  have hopen : Total (· = st) (openParser mem opening).run := by
    rintro _ rfl; exact total_openParser mem opening _ hv
  have hclose : Total st.Below (closeParser mem closing).run :=
    fun t h => total_closeParser mem closing t (hvalid t h)
  exact hopen.bind ((takes_openParser mem opening).keeps_start ho hv) fun _ =>
    helems.bind hkeeps fun _ => hclose.map _

theorem approx_bracketed (ho : 0 < opening.size) (hv : st.Valid)
    (h : Approx st.Below st.Below A B) (x : X) :
    Approx (· = st) st.Below (bracketed mem opening sep closing A push x)
      (bracketed mem opening sep closing B push x) := by
  have hopen := ((takes_openParser mem opening).keeps_start ho hv).approx
  have hsep := ((takes_separator mem sep).keeps_below st).approx
  have hclose := ((takes_closeParser mem closing).keeps_below st).approx
  exact hopen.bind fun _ => (hsep.sepBy h x).bind fun _ => hclose.map _

end

/-! ### Pairs, for a value that is not always good -/

section
variable {key : Parser g V} {val val' : Parser false W} (sep : AnyLiteral)

/-- The separator and the value, as `make` joins them. -/
def joined (mem : Memory) (sep : AnyLiteral) (val : Parser false W) : Parser false W :=
  join (.cons (separator mem [sep]) .nil) val

theorem run_joined (mem : Memory) (val : Parser false W) : (joined mem sep val).run =
    bind (match_ (.cons (separator mem [sep]) .nil)).run fun _ => val.run :=
  joinLast_run_fallible _ val

theorem run_makePair (mem : Memory) (key : Parser g V) (val : Parser false W) :
    (makePair mem sep key val).run = (Parser.ofAttempt (V := pair V W) false
      (Attempt.map (fun (v, w, _) => (v, w))
        (Parsers.cons key (.cons (joined mem sep val) .nil)).runAll)).run :=
  congrArg Parser.run (makeVariadic_eq _ _)

theorem takes_joined (mem : Memory) (h : Takes 0 val.run) : Takes 0 (joined mem sep val).run := by
  rw [run_joined]
  have hm := takes_match (takes_cons (takes_separator mem sep) takes_nil)
  exact (hm.mono (Nat.zero_le _)).bind fun _ => h

theorem takes_makePair (mem : Memory) (hkey : Takes 0 key.run) (hval : Takes 0 val.run) :
    Takes 0 (makePair mem sep key val).run := by
  rw [run_makePair]
  exact ((takes_cons hkey (takes_cons (takes_joined sep mem hval) takes_nil)).map _).ofAttempt

theorem total_makePair (mem : Memory) (hkt : Total State.Valid key.run) (hkey : Takes 0 key.run)
    (hval : Takes 0 val.run) (ht : Total st.Below val.run) :
    Total st.Below (makePair mem sep key val).run := by
  have hvalid : ∀ t, st.Below t → t.Valid := fun t h => h.1.valid
  have hm := takes_match (takes_cons (takes_separator mem sep) takes_nil)
  have hmt : Total st.Below (match_ (.cons (separator mem [sep]) .nil)).run := fun t h =>
    total_match (total_cons (total_separator mem sep) (takes_separator mem sep).keeps (total_pure ()))
      t (hvalid t h)
  have hj : Total st.Below (joined mem sep val).run := by
    rw [run_joined]
    exact hmt.bind (hm.keeps_below st) fun _ => ht
  have hk : Total st.Below key.run := fun t h => hkt t (hvalid t h)
  rw [run_makePair]
  exact total_ofAttempt ((total_cons hk (hkey.keeps_below st) (total_cons hj
    ((takes_joined sep mem hval).keeps_below st) (total_pure ()))).map _) (by simp)

theorem approx_makePair (mem : Memory) (hkey : Takes 0 key.run)
    (h : Approx st.Below st.Below val.run val'.run) :
    Approx st.Below st.Below (makePair mem sep key val).run (makePair mem sep key val').run := by
  have hm := takes_match (takes_cons (takes_separator mem sep) takes_nil)
  have hj : Approx st.Below st.Below (joined mem sep val).run (joined mem sep val').run := by
    rw [run_joined, run_joined]
    exact (hm.keeps_below st).approx.bind fun _ => h
  rw [run_makePair, run_makePair]
  exact approx_ofAttempt ((approx_cons (hkey.keeps_below st).approx (approx_cons hj
    (approx_pure ()))).map _)

end

end Noam
