import Mathlib.Data.List.Basic

/-! Computations that may fail. `Ends` says what every success satisfies; `Related`
that two computations fail alike or succeed with related values. Both pass through
binds and branches. -/
namespace Warcaby.Outcome

section Single
variable {ε α β : Type} {P : β → Prop}

def Ends (P : β → Prop) (out : Except ε β) : Prop := ∀ r, out = .ok r → P r

theorem endsOk {r : β} (holds : P r) : Ends P (.ok r : Except ε β) := by
  intro s same
  cases same
  exact holds

theorem endsBind (x : Except ε α) {next : α → Except ε β}
    (later : ∀ a, x = .ok a → Ends P (next a)) : Ends P (x >>= next) := by
  cases x with
  | error fault =>
    intro r same
    cases same
  | ok a => exact later a rfl

theorem endsIte {c : Prop} [Decidable c] {yes no : Except ε β} (one : c → Ends P yes)
    (other : ¬ c → Ends P no) : Ends P (if c then yes else no) := by
  split
  · exact one ‹_›
  · exact other ‹_›

/- A loop over a list: the invariant is about what has been gone through so far. -/
theorem endsFold {next : β → α → Except ε β} {invariant : List α → β → Prop}
    (preserved : ∀ done a s, invariant done s → Ends (invariant (done ++ [a])) (next s a))
    {done : List α} {s : β} (before : invariant done s) (later : List α) :
    Ends (invariant (done ++ later)) (later.foldlM next s) := by
  induction later generalizing done s with
  | nil =>
    rw [List.append_nil, List.foldlM_nil]
    exact endsOk before
  | cons a later ih =>
    rw [List.foldlM_cons, List.append_cons]
    exact endsBind _ (fun s' stepped => ih (preserved done a s before s' stepped))

end Single

section Pair
variable {ε α δ β γ : Type} {R : β → γ → Prop}

inductive Related (R : β → γ → Prop) : Except ε β → Except ε γ → Prop where
  | ok {b c} (related : R b c) : Related R (.ok b) (.ok c)
  | error (fault : ε) : Related R (.error fault) (.error fault)

theorem relatedLeft {b : β} {y : Except ε γ} (related : Related R (.ok b) y) :
    ∃ c, y = .ok c ∧ R b c := by
  cases related with
  | ok same => exact ⟨_, rfl, same⟩

theorem relatedRight {x : Except ε β} {c : γ} (related : Related R x (.ok c)) :
    ∃ b, x = .ok b ∧ R b c := by
  cases related with
  | ok same => exact ⟨_, rfl, same⟩

theorem relatedBind (x : Except ε α) {left : α → Except ε β} {right : α → Except ε γ}
    (later : ∀ a, x = .ok a → Related R (left a) (right a)) :
    Related R (x >>= left) (x >>= right) := by
  cases x with
  | error fault => exact .error fault
  | ok a => exact later a rfl

theorem relatedBoth {S : α → δ → Prop} {x : Except ε α} {y : Except ε δ}
    {left : α → Except ε β} {right : δ → Except ε γ} (first : Related S x y)
    (later : ∀ a d, S a d → Related R (left a) (right d)) :
    Related R (x >>= left) (y >>= right) := by
  cases first with
  | ok same => exact later _ _ same
  | error fault => exact .error fault

theorem relatedIte {c d : Prop} [Decidable c] [Decidable d] (same : c ↔ d)
    {yes no : Except ε β} {yes' no' : Except ε γ} (one : c → Related R yes yes')
    (other : ¬ c → Related R no no') :
    Related R (if c then yes else no) (if d then yes' else no') := by
  by_cases holds : c
  · rw [if_pos holds, if_pos (same.mp holds)]
    exact one holds
  · rw [if_neg holds, if_neg (fun taken => holds (same.mpr taken))]
    exact other holds

end Pair
end Warcaby.Outcome
