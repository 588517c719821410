import Mathlib.Data.Nat.Digits.Defs
import Noam.Intrinsics

/-!
# `std::from_chars` for `int`, and decimal texts

`from_chars` reads the longest decimal integer at the start of a text, an optional minus and digits, and
fails when there is none or its value does not fit.
-/

namespace Noam
open ValueType

/-- `int`, of 32 bits -/
abbrev ValueType.int : ValueType :=
  type {n : Int // -2 ^ 31 ≤ n ∧ n < 2 ^ 31} (some ⟨0, by decide⟩)

def isDigit (c : UInt8) : Bool := ch '0' ≤ c && c ≤ ch '9'

/-- The value of a string of digits. -/
def digitsValue (ds : List UInt8) : Nat := ds.foldl (fun n c => 10 * n + (c.toNat - 48)) 0

/-- Whether there is a minus, and the digits after it. -/
def scanInt (text : List UInt8) : Bool × List UInt8 :=
  let minus := [ch '-'].isPrefixOf text
  (minus, (text.drop minus.toNat).takeWhile isDigit)

def intValue (minus : Bool) (ds : List UInt8) : Int :=
  if minus then -digitsValue ds else digitsValue ds

def fromCharsInt (text : List UInt8) : Option (Nat × ValueType.int) :=
  let (minus, ds) := scanInt text
  if h : ds ≠ [] ∧ -2 ^ 31 ≤ intValue minus ds ∧ intValue minus ds < 2 ^ 31 then
    some (minus.toNat + ds.length, ⟨intValue minus ds, h.2⟩)
  else none

theorem length_scanInt (text : List UInt8) :
    (scanInt text).1.toNat + (scanInt text).2.length ≤ text.length := by
  have hle := (List.takeWhile_prefix isDigit (l := text.drop (scanInt text).1.toNat)).length_le
  rw [List.length_drop] at hle
  have hminus : (scanInt text).1.toNat ≤ text.length := by
    cases text with
    | nil => decide
    | cons c text =>
      have h1 := Bool.toNat_le (scanInt (c :: text)).1
      rw [List.length_cons]
      omega
  have hds : (scanInt text).2 = (text.drop (scanInt text).1.toNat).takeWhile isDigit := rfl
  rw [hds]
  omega

theorem scanInt_read_le {text : List UInt8} (h : (scanInt text).2 ≠ []) :
    0 < (scanInt text).1.toNat + (scanInt text).2.length ∧
      (scanInt text).1.toNat + (scanInt text).2.length ≤ text.length :=
  ⟨Nat.add_pos_right _ (List.length_pos_iff.2 h), length_scanInt text⟩

def intFromChars : FromChars ValueType.int where
  fromChars := fromCharsInt
  read_le {text n v} h := by
    unfold fromCharsInt at h
    simp only at h
    split at h
    · rename_i hds
      cases h
      exact scanInt_read_le hds.1
    · cases h

/-! ### Decimal texts -/

def digitChar (d : Nat) : UInt8 := UInt8.ofNat (48 + d)

def decimal (n : Nat) : List UInt8 :=
  if n = 0 then [ch '0'] else (Nat.digits 10 n).reverse.map digitChar

def renderInt (v : ValueType.int) : List UInt8 :=
  if v.1 < 0 then ch '-' :: decimal v.1.natAbs else decimal v.1.natAbs

theorem isDigit_digitChar : ∀ d < 10, isDigit (digitChar d) = true := by decide

theorem toNat_digitChar : ∀ d < 10, (digitChar d).toNat - 48 = d := by decide

theorem digitsValue_map (l : List Nat) (h : ∀ d ∈ l, d < 10) :
    digitsValue (l.reverse.map digitChar) = Nat.ofDigits 10 l := by
  induction l with
  | nil => rfl
  | cons d l ih =>
    have hd := toNat_digitChar d (h d List.mem_cons_self)
    have ih := ih fun e he => h e (List.mem_cons_of_mem d he)
    unfold digitsValue at ih ⊢
    rw [List.reverse_cons, List.map_append, List.foldl_append, ih, Nat.ofDigits_cons]
    show 10 * Nat.ofDigits 10 l + ((digitChar d).toNat - 48) = _
    rw [hd]
    exact Nat.add_comm _ _

theorem digitsValue_decimal (n : Nat) : digitsValue (decimal n) = n := by
  unfold decimal
  split
  · rename_i h; rw [h]; rfl
  · rw [digitsValue_map _ fun d hd => Nat.digits_lt_base (by decide) hd, Nat.ofDigits_digits]

theorem isDigit_of_mem_decimal {n : Nat} {c : UInt8} (h : c ∈ decimal n) : isDigit c = true := by
  unfold decimal at h
  split at h
  · rw [List.mem_singleton] at h
    rw [h]; decide
  · obtain ⟨d, hd, rfl⟩ := List.mem_map.1 h
    exact isDigit_digitChar d (Nat.digits_lt_base (by decide) (List.mem_reverse.1 hd))

theorem decimal_ne_nil (n : Nat) : decimal n ≠ [] := by
  unfold decimal
  split
  · simp
  · rename_i h
    have hd : Nat.digits 10 n ≠ [] := Nat.digits_ne_nil_iff_ne_zero.2 h
    simpa only [ne_eq, List.map_eq_nil_iff, List.reverse_eq_nil_iff] using hd

/-- The text starts with a digit. -/
def startsDigit : List UInt8 → Bool
  | [] => false
  | c :: _ => isDigit c

theorem takeWhile_decimal (n : Nat) {t : List UInt8} (ht : startsDigit t = false) :
    (decimal n ++ t).takeWhile isDigit = decimal n := by
  have htail : t.takeWhile isDigit = [] := by
    cases t with
    | nil => rfl
    | cons c t => rw [List.takeWhile_cons, show isDigit c = false from ht]; rfl
  rw [List.takeWhile_append_of_pos fun c hc => isDigit_of_mem_decimal hc, htail, List.append_nil]

theorem scanInt_render (v : ValueType.int) {t : List UInt8} (ht : startsDigit t = false) :
    scanInt (renderInt v ++ t) = (decide (v.1 < 0), decimal v.1.natAbs) := by
  have hscan := takeWhile_decimal v.1.natAbs ht
  unfold renderInt
  by_cases hv : v.1 < 0
  · rw [if_pos hv, decide_eq_true hv]
    show (true, (decimal v.1.natAbs ++ t).takeWhile isDigit) = _
    rw [hscan]
  · rw [if_neg hv, decide_eq_false hv]
    have hminus : [ch '-'].isPrefixOf (decimal v.1.natAbs ++ t) = false := by
      rcases hd : decimal v.1.natAbs with _ | ⟨c, cs⟩
      · exact absurd hd (decimal_ne_nil _)
      · have hc : isDigit c = true := isDigit_of_mem_decimal (n := v.1.natAbs) (by rw [hd]; simp)
        have hne : ch '-' ≠ c := by rintro rfl; exact absurd hc (by decide)
        simpa [List.isPrefixOf] using hne
    unfold scanInt
    simp only [hminus]
    show (false, (decimal v.1.natAbs ++ t).takeWhile isDigit) = _
    rw [hscan]

/-- A rendered `int` is read back in front of anything but a digit. -/
theorem fromCharsInt_render (v : ValueType.int) {t : List UInt8} (ht : startsDigit t = false) :
    fromCharsInt (renderInt v ++ t) = some ((renderInt v).length, v) := by
  obtain ⟨n, hn⟩ := v
  have hvalue : intValue (decide (n < 0)) (decimal n.natAbs) = n := by
    rw [intValue, digitsValue_decimal]
    by_cases h : n < 0
    · rw [if_pos (decide_eq_true h)]; omega
    · rw [if_neg (by simpa using h)]; omega
  have hlen : (decide (n < 0)).toNat + (decimal n.natAbs).length = (renderInt ⟨n, hn⟩).length := by
    unfold renderInt
    by_cases h : n < 0
    · rw [decide_eq_true h, if_pos h, List.length_cons, Nat.add_comm]; rfl
    · rw [decide_eq_false h, if_neg h, Nat.add_comm]; rfl
  unfold fromCharsInt
  rw [scanInt_render ⟨n, hn⟩ ht]
  simp only [hvalue, hlen]
  rw [dif_pos ⟨decimal_ne_nil _, hn⟩]

/-- What starts with neither a minus nor a digit is no integer. -/
theorem fromCharsInt_none {t : List UInt8} (hm : [ch '-'].isPrefixOf t = false)
    (ht : startsDigit t = false) : fromCharsInt t = none := by
  have hscan : scanInt t = (false, []) := by
    unfold scanInt
    rw [hm]
    cases t with
    | nil => rfl
    | cons c t =>
      show (false, (c :: t).takeWhile isDigit) = _
      rw [List.takeWhile_cons, show isDigit c = false from ht]; rfl
  unfold fromCharsInt
  rw [hscan]
  exact dif_neg fun h => h.1 rfl

end Noam
