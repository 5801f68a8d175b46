import Mathlib.Data.Seq.Basic

/-! Formatted input of integers. A call converts tokens from the left into variables
and stops at the first token that is no integer, which stays unread (a word begins
with no sign, which would be read); the variables not reached keep their values. The
end of the input stops it in the same way. -/
namespace Warcaby.Scanf

inductive Token where
  | integer (z : Int)
  | word (text : String)
  deriving DecidableEq, Repr

abbrev Tokens := Stream'.Seq Token

section Scanf
variable {V : Type} {tokens : Tokens}

-- One `%d` for each variable; the result holds the position of the next unread token.
def scanf (tokens : Tokens) : List (V → Int → V) → V → Nat → V × Nat
  | [], vars, position => (vars,position)
  | assign :: more, vars, position =>
    match tokens.get? position with
    | some (.integer z) => scanf tokens more (assign vars z) (position + 1)
    | _ => (vars,position)

def Ahead (tokens : Tokens) (position : Nat) (xs : List Token) : Prop :=
  ∀ (i : Nat) (t : Token), xs[i]? = some t → tokens.get? (position + i) = some t

def Gap (tokens : Tokens) (position : Nat) : Prop :=
  ∀ z : Int, tokens.get? position ≠ some (.integer z)

theorem aheadCons {position : Nat} {t : Token} {xs : List Token} :
    Ahead tokens position (t :: xs) ↔
      tokens.get? position = some t ∧ Ahead tokens (position + 1) xs := by
  constructor
  · intro ahead
    refine ⟨ahead 0 t rfl, fun i u found => ?_⟩
    have next := ahead (i + 1) u found
    rwa [Nat.add_comm i 1, ← Nat.add_assoc] at next
  · rintro ⟨first, rest⟩ i u found
    cases i with
    | zero => cases found; exact first
    | succ i =>
      have next := rest i u found
      rwa [Nat.add_assoc, Nat.add_comm 1 i] at next

theorem aheadAppend {position : Nat} {xs ys : List Token} :
    Ahead tokens position (xs ++ ys) ↔
      Ahead tokens position xs ∧ Ahead tokens (position + xs.length) ys := by
  induction xs generalizing position with
  | nil => simp [Ahead]
  | cons x xs ih =>
    have next : position + 1 + xs.length = position + (x :: xs).length := by
      rw [List.length_cons]; omega
    rw [List.cons_append, aheadCons, aheadCons, ih, next, and_assoc]

theorem wordGap {position : Nat} {text : String}
    (word : tokens.get? position = some (.word text)) : Gap tokens position := by
  intro z integer
  rw [word] at integer
  cases integer

theorem scanfInteger {position : Nat} {z : Int}
    (integer : tokens.get? position = some (.integer z)) (assign : V → Int → V)
    (more : List (V → Int → V)) (vars : V) :
    scanf tokens (assign :: more) vars position =
      scanf tokens more (assign vars z) (position + 1) := by
  rw [scanf, integer]

theorem scanfGap {position : Nat} (gap : Gap tokens position) (assigns : List (V → Int → V))
    (vars : V) : scanf tokens assigns vars position = (vars,position) := by
  cases assigns with
  | nil => rfl
  | cons assign more =>
    rw [scanf]
    split
    · rename_i z integer
      exact absurd integer (gap z)
    · rfl

theorem scanfCases (assigns : List (V → Int → V)) (vars : V) (position : Nat) :
    (∃ zs : List Int, zs.length = assigns.length ∧ Ahead tokens position (zs.map .integer)) ∨
      (scanf tokens assigns vars position).2 < position + assigns.length ∧
        Gap tokens (scanf tokens assigns vars position).2 := by
  induction assigns generalizing vars position with
  | nil => exact .inl ⟨[], rfl, by simp [Ahead]⟩
  | cons assign more ih =>
    by_cases gap : Gap tokens position
    · rw [scanfGap gap]
      exact .inr ⟨by simp, gap⟩
    · unfold Gap at gap
      push Not at gap
      obtain ⟨z, integer⟩ := gap
      rw [scanfInteger integer]
      rcases ih (assign vars z) (position + 1) with ⟨zs, size, ahead⟩ | ⟨short, stopped⟩
      · exact .inl ⟨z :: zs, by simp [size], aheadCons.mpr ⟨integer, ahead⟩⟩
      · exact .inr ⟨by rw [List.length_cons]; omega, stopped⟩

end Scanf
end Warcaby.Scanf
