import Mathlib.Data.Int.Order.Lemmas
import Mathlib.Data.List.DropRight
import Mathlib.Data.Nat.Digits.Defs
import Mathlib.Tactic.IntervalCases
import Warcaby.Scanf
import Warcaby.Texts

/-! Formatted input of integers from bytes. White space is skipped, a sign may follow, then
the digits come. Where there are none nothing is converted, but a sign has been read by
then and is not put back. -/
namespace Warcaby.Decimal
open Scanf
open Texts (utf8)

def space (b : UInt8) : Bool := b = 32 || (9 ≤ b && b ≤ 13)
def digit (b : UInt8) : Bool := 48 ≤ b && b ≤ 57
def plus : UInt8 := 43
def minus : UInt8 := 45
def newline : UInt8 := 10

def figure (b : UInt8) : Nat := b.toNat - 48
def value (digits : List UInt8) : Nat := Nat.ofDigits 10 (digits.reverse.map figure)

-- What an `int` can hold.
def Fits (z : Int) : Prop := -2 ^ 31 ≤ z ∧ z < 2 ^ 31

-- Undefined in C for what does not fit; in practice the low 32 bits of the nearest `long`.
def stored (z : Int) : Int := (max (-2 ^ 63) (min z (2 ^ 63 - 1))).bmod (2 ^ 32)

def unsigned (f : Nat → Int) (input : List UInt8) : Option Int × List UInt8 :=
  let digits := input.takeWhile digit
  if digits = [] then (none,input) else (some (stored (f (value digits))),input.dropWhile digit)

def convert (input : List UInt8) : Option Int × List UInt8 :=
  match input.dropWhile space with
  | [] => (none,[])
  | b :: rest =>
    if b = minus then unsigned (fun n => -n) rest
    else if b = plus then unsigned (fun n => n) rest
    else unsigned (fun n => n) (b :: rest)

def scanfBytes {V : Type} : List (V → Int → V) → V → List UInt8 → V × List UInt8
  | [], vars, input => (vars,input)
  | assign :: more, vars, input =>
    match convert input with
    | (some z,rest) => scanfBytes more (assign vars z) rest
    | (none,rest) => (vars,rest)

def Foreign (b : UInt8) : Prop := ¬ digit b ∧ ¬ space b ∧ b ≠ minus ∧ b ≠ plus

instance (b : UInt8) : Decidable (Foreign b) := inferInstanceAs (Decidable (_ ∧ _ ∧ _ ∧ _))

/- Tokens that `scanf` treats as `Scanf` does: numbers that an `int` holds, and words that are
left unread, since they begin with no digit, sign or white space. -/
def Plain : Token → Prop
  | .integer z => Fits z
  | .word text => ∃ b ∈ (utf8 text).head?, Foreign b

instance (z : Int) : Decidable (Fits z) := inferInstanceAs (Decidable (_ ∧ _))

instance : DecidablePred Plain
  | .integer z => inferInstanceAs (Decidable (Fits z))
  | .word text => inferInstanceAs (Decidable (∃ b ∈ (utf8 text).head?, Foreign b))

structure Input where
  tokens : Tokens
  plain : ∀ i t, tokens.get? i = some t → Plain t

def ofTokens (xs : List Token) (plain : ∀ t ∈ xs, Plain t) : Input where
  tokens := Stream'.Seq.ofList xs
  plain := fun i t found => plain t (List.mem_of_getElem? (i := i) (by simpa using found))

structure Digits (digits : List UInt8) : Prop where
  some : digits ≠ []
  all : ∀ b ∈ digits, digit b

inductive Numeral : Int → List UInt8 → Prop where
  | unsigned {ds} (digits : Digits ds) : Numeral (value ds) ds
  | plus {ds} (digits : Digits ds) : Numeral (value ds) (plus :: ds)
  | minus {ds} (digits : Digits ds) : Numeral (-value ds) (minus :: ds)

def Apart (rest : List UInt8) : Prop := ∀ b, rest.head? = some b → ¬ digit b

/- The tokens from `position` on, up to the end or the first word; what follows that is never read. -/
inductive Spells (tokens : Tokens) : Nat → List UInt8 → Prop where
  | ends {position blanks} (white : ∀ b ∈ blanks, space b) (last : tokens.get? position = none) :
      Spells tokens position blanks
  | word {position text blanks} (rest : List UInt8) (white : ∀ b ∈ blanks, space b)
      (found : tokens.get? position = some (.word text)) :
      Spells tokens position (blanks ++ utf8 text ++ rest)
  | number {position z blanks numeral rest} (white : ∀ b ∈ blanks, space b)
      (found : tokens.get? position = some (.integer z)) (means : Numeral z numeral)
      (apart : Apart rest) (more : Spells tokens (position + 1) rest) :
      Spells tokens position (blanks ++ numeral ++ rest)

section Conversion
variable {z : Int} {tokens : Tokens} {position : Nat} {blanks numeral rest text ds : List UInt8}

theorem storedFits (fits : Fits z) : stored z = z := by
  obtain ⟨low, high⟩ := fits
  have clamped : max (-2 ^ 63) (min z (2 ^ 63 - 1)) = z := by omega
  rw [stored, clamped]
  exact Int.bmod_eq_of_le (by omega) (by omega)

theorem digitNoSpace {b : UInt8} (is : digit b) : space b = false := by
  simp only [digit, Bool.and_eq_true, decide_eq_true_eq, UInt8.le_iff_toNat_le] at is
  have apart : b ≠ 32 := by
    rintro rfl
    exact absurd is.1 (by decide)
  simp only [space, decide_eq_false apart, Bool.false_or, Bool.and_eq_false_iff, decide_eq_false_iff_not,
    UInt8.le_iff_toNat_le]
  have low := is.1
  simp at low ⊢
  omega

theorem unsignedDigits (f : Nat → Int) (digits : Digits ds) (apart : Apart rest) :
    unsigned f (ds ++ rest) = (some (stored (f (value ds))),rest) := by
  have none : rest.takeWhile digit = [] := by
    cases rest with
    | nil => rfl
    | cons b rest => exact List.takeWhile_cons_of_neg (apart b rfl)
  have kept : rest.dropWhile digit = rest := by
    cases rest with
    | nil => rfl
    | cons b rest => exact List.dropWhile_cons_of_neg (apart b rfl)
  have read : (ds ++ rest).takeWhile digit = ds := by
    rw [List.takeWhile_append_of_pos digits.all, none, List.append_nil]
  simp only [unsigned, read, if_neg digits.some, List.dropWhile_append_of_pos digits.all, kept]

theorem unsignedNone (f : Nat → Int) (apart : Apart text) : unsigned f text = (none,text) := by
  have none : text.takeWhile digit = [] := by
    cases text with
    | nil => rfl
    | cons b rest => exact List.takeWhile_cons_of_neg (apart b rfl)
  simp only [unsigned, none, if_pos]

theorem convertNumeral (white : ∀ b ∈ blanks, space b) (means : Numeral z numeral) (apart : Apart rest) :
    convert (blanks ++ numeral ++ rest) = (some (stored z),rest) := by
  rw [convert, List.append_assoc, List.dropWhile_append_of_pos white]
  cases means with
  | unsigned digits =>
    obtain ⟨b, ds, rfl⟩ := List.exists_cons_of_ne_nil digits.some
    have first := digits.all b (by simp)
    have stays : (b :: ds ++ rest).dropWhile space = b :: ds ++ rest :=
      List.dropWhile_cons_of_neg (by simp [digitNoSpace first])
    have noMinus : b ≠ minus := by
      rintro rfl
      exact absurd first (by decide)
    have noPlus : b ≠ plus := by
      rintro rfl
      exact absurd first (by decide)
    rw [stays, List.cons_append]
    dsimp only
    rw [if_neg noMinus, if_neg noPlus, ← List.cons_append]
    exact unsignedDigits _ digits apart
  | plus digits => exact unsignedDigits (fun n => n) digits apart
  | minus digits => exact unsignedDigits (fun n => -n) digits apart

theorem convertBlank (white : ∀ b ∈ blanks, space b) : convert blanks = (none,[]) := by
  rw [convert, List.dropWhile_eq_nil_iff.mpr white]

theorem convertWord {word : String} (white : ∀ b ∈ blanks, space b) (plain : Plain (.word word)) :
    convert (blanks ++ utf8 word ++ rest) = (none,utf8 word ++ rest) := by
  obtain ⟨b, first, noDigit, noSpace, noMinus, noPlus⟩ := plain
  obtain ⟨letters, text⟩ := List.head?_eq_some_iff.mp first
  have stays : (b :: letters ++ rest).dropWhile space = b :: letters ++ rest :=
    List.dropWhile_cons_of_neg noSpace
  rw [convert, List.append_assoc, List.dropWhile_append_of_pos white, text, stays, List.cons_append]
  dsimp only
  rw [if_neg noMinus, if_neg noPlus]
  refine unsignedNone _ fun c first => ?_
  cases first
  exact noDigit

theorem spellsBlank {b : UInt8} (white : space b) (spells : Spells tokens position text) :
    Spells tokens position (b :: text) := by
  cases spells with
  | ends whites last => exact .ends (List.forall_mem_cons.mpr ⟨white, whites⟩) last
  | word rest whites found =>
    have longer := Spells.word rest (List.forall_mem_cons.mpr ⟨white, whites⟩) found
    exact longer
  | number whites found means apart more =>
    have longer := Spells.number (List.forall_mem_cons.mpr ⟨white, whites⟩) found means apart more
    exact longer

end Conversion

section Reading
variable {V : Type} {input : Input} {position : Nat} {text : List UInt8}

theorem scanfSpells (spells : Spells input.tokens position text) (assigns : List (V → Int → V))
    (vars : V) :
    (scanfBytes assigns vars text).1 = (scanf input.tokens assigns vars position).1 ∧
      Spells input.tokens (scanf input.tokens assigns vars position).2
        (scanfBytes assigns vars text).2 := by
  induction assigns generalizing position vars text with
  | nil => exact ⟨rfl, spells⟩
  | cons assign assigns ih =>
    cases spells with
    | ends white last =>
      have gap : Gap input.tokens position := by
        intro z found
        rw [last] at found
        cases found
      rw [scanfGap gap]
      simp only [scanfBytes, convertBlank white]
      exact ⟨trivial, .ends (by simp) last⟩
    | @word _ word blanks rest white found =>
      rw [scanfGap (wordGap found)]
      simp only [scanfBytes, convertWord white (input.plain _ _ found)]
      have here := Spells.word rest (List.forall_mem_nil (space ·)) found
      exact ⟨trivial, here⟩
    | @number _ z blanks numeral rest white found means apart more =>
      have kept : stored z = z := storedFits (input.plain _ _ found)
      rw [scanfInteger found]
      simp only [scanfBytes, convertNumeral white means apart, kept]
      exact ih more _

end Reading

section Writing
variable {tokens : Tokens} {position : Nat} {text : List UInt8}

def character (figure : Nat) : UInt8 := UInt8.ofNat (48 + figure)

def numeral (n : Nat) : List UInt8 :=
  if n = 0 then [character 0] else ((Nat.digits 10 n).map character).reverse

def decimal (z : Int) : List UInt8 := if z < 0 then minus :: numeral z.natAbs else numeral z.natAbs

theorem characterDigit {d : Nat} (small : d < 10) : digit (character d) ∧ figure (character d) = d := by
  interval_cases d <;> decide

theorem numeralDigits (n : Nat) : Digits (numeral n) ∧ value (numeral n) = n := by
  by_cases zero : n = 0
  · subst zero
    have figure := characterDigit (d := 0) (by decide)
    exact ⟨⟨List.cons_ne_nil _ _, List.forall_mem_singleton.mpr figure.1⟩, rfl⟩
  · have small : ∀ d ∈ Nat.digits 10 n, d < 10 := fun d inside => Nat.digits_lt_base (by decide) inside
    rw [numeral, if_neg zero]
    refine ⟨⟨?_, ?_⟩, ?_⟩
    · simpa [Nat.digits_eq_nil_iff_eq_zero] using zero
    · simp only [List.mem_reverse, List.forall_mem_map]
      exact fun d inside => (characterDigit (small d inside)).1
    · have figures : ((Nat.digits 10 n).map character).map figure = Nat.digits 10 n := by
        rw [List.map_map]
        exact (List.map_congr_left fun d inside => (characterDigit (small d inside)).2).trans (List.map_id _)
      rw [value, List.reverse_reverse, figures, Nat.ofDigits_digits]

theorem decimalNumeral (z : Int) : Numeral z (decimal z) := by
  obtain ⟨digits, same⟩ := numeralDigits z.natAbs
  unfold decimal
  split
  · have whole := Numeral.minus digits
    rwa [same, Int.ofNat_natAbs_of_nonpos (by omega), neg_neg] at whole
  · have whole := Numeral.unsigned digits
    rwa [same, Int.natAbs_of_nonneg (by omega)] at whole

theorem spellsDecimal {b : UInt8} {z : Int} (found : tokens.get? position = some (.integer z))
    (white : space b) (more : Spells tokens (position + 1) text) :
    Spells tokens position (decimal z ++ b :: text) := by
  have apart : Apart (b :: text) := by
    intro c first
    cases first
    intro is
    rw [digitNoSpace is] at white
    cases white
  have here := Spells.number (List.forall_mem_nil (space ·)) found (decimalNumeral z) apart
    (spellsBlank white more)
  exact here

end Writing
end Warcaby.Decimal
