import Mathlib.Data.List.Basic

/-! Texts that can be read back. A form is fixed text with places for values; texts
none of which begins another are told apart when they stand in a row. -/
namespace Warcaby.Texts

def utf8 (s : String) : List UInt8 := s.toUTF8.data.toList

section Forms
variable {σ α : Type}

inductive Slot (σ α : Type) where
  | fixed (a : α)
  | place (s : σ)
  deriving DecidableEq

@[simp] def Slot.fill (values : σ → α) : Slot σ α → α
  | fixed a => a
  | place s => values s

def filled (form : List (Slot σ α)) (values : σ → α) : List α := form.map (Slot.fill values)

def plain (text : List α) : List (Slot σ α) := text.map .fixed

variable {form : List (Slot σ α)} {values : σ → α} {k : Nat}

@[simp] theorem filledLength : (filled form values).length = form.length := List.length_map ..

@[simp] theorem filledCons (spot : Slot σ α) :
    filled (spot :: form) values = spot.fill values :: filled form values := rfl

@[simp] theorem filledPlain (text : List α) : filled (plain text) values = text := by
  simp [filled, plain, Function.comp_def]

@[simp] theorem filledAppend (more : List (Slot σ α)) :
    filled (form ++ more) values = filled form values ++ filled more values := List.map_append

@[simp] theorem filledFlatMap {ι : Type} (items : List ι) (part : ι → List (Slot σ α)) :
    filled (items.flatMap part) values = items.flatMap (fun i => filled (part i) values) :=
  List.map_flatMap

theorem filledAt {spot : Slot σ α} (found : form[k]? = some spot) :
    (filled form values)[k]? = some (spot.fill values) := by
  simp [filled, found]

def mayRead [DecidableEq α] : List (Slot σ α) → List α → Bool
  | _, [] => true
  | [], _ :: _ => false
  | .fixed a :: form, b :: text => a = b && mayRead form text
  | .place _ :: form, _ :: text => mayRead form text

theorem readsMay [DecidableEq α] {text : List α} (reads : text <+: filled form values) :
    mayRead form text = true := by
  induction text generalizing form with
  | nil => cases form <;> rfl
  | cons b text ih =>
    cases form with
    | nil => simp [filled] at reads
    | cons spot form =>
      obtain ⟨same, rest⟩ := List.cons_prefix_cons.mp reads
      cases spot with
      | fixed a => simp [mayRead, ih rest, show b = a from same]
      | place s => exact ih rest

theorem readsPlain {text : List α} (here : plain text <+: form.drop k) :
    text <+: (filled form values).drop k := by
  obtain ⟨rest, same⟩ := here
  rw [filled, ← List.map_drop, ← same, List.map_append]
  exact ⟨_, congrArg (· ++ _) (filledPlain text).symm⟩

def readings [DecidableEq α] : List (Slot σ α) → List α → List Nat
  | [], _ => []
  | spot :: form, text =>
    let later := (readings form text).map (· + 1)
    if mayRead (spot :: form) text then 0 :: later else later

theorem readsThere [DecidableEq α] {text : List α} (nonempty : text ≠ [])
    (reads : text <+: (filled form values).drop k) : k ∈ readings form text := by
  induction form generalizing k with
  | nil =>
    rw [filled, List.map_nil, List.drop_nil, List.prefix_nil] at reads
    exact absurd reads nonempty
  | cons spot form ih =>
    cases k with
    | zero =>
      have may : mayRead (spot :: form) text = true := readsMay reads
      simp [readings, may]
    | succ k =>
      have later := ih (k := k) reads
      simp only [readings]
      split <;> simp [later]

end Forms

section Rows
variable {σ α : Type} {code : σ → List α}

def PrefixFree (code : σ → List α) : Prop := ∀ a b, code a <+: code b → a = b

theorem prefixFreeSplit (free : PrefixFree code) {a b : σ} {rest more : List α}
    (same : code a ++ rest = code b ++ more) : a = b ∧ rest = more := by
  have left : code a <+: code b ++ more := ⟨rest, same⟩
  have either := List.prefix_or_prefix_of_prefix left (List.prefix_append (code b) more)
  obtain rfl : a = b := either.elim (free a b) (fun other => (free b a other).symm)
  exact ⟨rfl, List.append_cancel_left same⟩

theorem fieldPrefix {mark : α} {u v rest more : List α} (first : mark ∉ u) (second : mark ∉ v)
    (reads : u ++ mark :: rest <+: v ++ mark :: more) : u = v ∧ rest <+: more := by
  induction u generalizing v with
  | nil =>
    cases v with
    | nil => exact ⟨rfl, (List.cons_prefix_cons.mp reads).2⟩
    | cons b v =>
      obtain ⟨same, _⟩ := List.cons_prefix_cons.mp reads
      exact absurd (same ▸ List.mem_cons_self) second
  | cons a u ih =>
    cases v with
    | nil =>
      obtain ⟨same, _⟩ := List.cons_prefix_cons.mp reads
      exact absurd (same ▸ List.mem_cons_self) first
    | cons b v =>
      obtain ⟨rfl, later⟩ := List.cons_prefix_cons.mp reads
      obtain ⟨rfl, rest⟩ := ih (fun there => first (List.mem_cons_of_mem _ there))
        (fun there => second (List.mem_cons_of_mem _ there)) later
      exact ⟨rfl, rest⟩

/- Induction on the first row: its texts are split off the second row one by one. -/
theorem rowPrefix (free : PrefixFree code) (nonempty : ∀ a, code a ≠ []) {first second : List σ}
    (reads : first.flatMap code <+: second.flatMap code) : first <+: second := by
  induction first generalizing second with
  | nil => exact List.nil_prefix
  | cons a first ih =>
    cases second with
    | nil =>
      obtain ⟨rest, same⟩ := reads
      exact absurd (List.append_eq_nil_iff.mp (List.append_eq_nil_iff.mp same).1).1 (nonempty a)
    | cons b second =>
      obtain ⟨rest, same⟩ := reads
      rw [List.flatMap_cons, List.flatMap_cons, List.append_assoc] at same
      obtain ⟨rfl, later⟩ := prefixFreeSplit free same
      exact List.cons_prefix_cons.mpr ⟨rfl, ih ⟨rest, later⟩⟩

theorem rowUnique (free : PrefixFree code) (nonempty : ∀ a, code a ≠ []) {first second : List σ}
    (same : first.flatMap code = second.flatMap code) : first = second := by
  have one : first <+: second := rowPrefix free nonempty (same ▸ List.prefix_rfl)
  have other : second <+: first := rowPrefix free nonempty (same ▸ List.prefix_rfl)
  exact one.eq_of_length (Nat.le_antisymm one.length_le other.length_le)

end Rows
end Warcaby.Texts
