import Mathlib.Data.List.Basic

/-! Byte sequences as C strings and stream sockets treat them: a string ends at its
first NUL, a receive overwrites the start of a buffer and leaves the rest, and a
message written to a stream may be read back in pieces. -/
namespace Warcaby.ByteStream

def strlen (s : List UInt8) : Nat := (s.takeWhile (· != 0)).length

theorem strlenAtLeast {s : List UInt8} {n : Nat} :
    n ≤ strlen s ↔ n ≤ s.length ∧ ∀ k < n, s[k]? ≠ some 0 := by
  induction s generalizing n with
  | nil => simp +contextual [strlen]
  | cons b rest ih =>
    cases n with
    | zero => simp
    | succ n =>
      by_cases zero : b = 0
      · subst b
        have none : strlen (0 :: rest) = 0 := by simp [strlen]
        rw [none]
        constructor
        · intro big
          omega
        · intro ⟨_, clean⟩
          exact absurd rfl (clean 0 (Nat.succ_pos n))
      · have grown : strlen (b :: rest) = strlen rest + 1 := by simp [strlen, zero]
        rw [grown, Nat.succ_le_succ_iff, ih, List.length_cons, Nat.succ_le_succ_iff]
        refine and_congr_right (fun _ => ⟨fun clean k small => ?_, fun clean k small => ?_⟩)
        · cases k with
          | zero => simpa using zero
          | succ k => simpa using clean k (Nat.succ_lt_succ_iff.mp small)
        · simpa using clean (k + 1) (Nat.succ_lt_succ small)

theorem strlenLe (s : List UInt8) : strlen s ≤ s.length := (strlenAtLeast.mp (Nat.le_refl _)).1

theorem strlenClean {s : List UInt8} (clean : ∀ b ∈ s, b ≠ 0) : strlen s = s.length := by
  refine Nat.le_antisymm (strlenLe s) (strlenAtLeast.mpr ⟨Nat.le_refl _, fun k _ zero => ?_⟩)
  exact clean 0 (List.mem_of_getElem? zero) rfl

theorem strlenStops {s : List UInt8} (short : strlen s < s.length) : s[strlen s]? = some 0 := by
  by_contra other
  have more : strlen s + 1 ≤ strlen s := by
    refine strlenAtLeast.mpr ⟨short, fun k small => ?_⟩
    by_cases last : k = strlen s
    · rw [last]; exact other
    · exact (strlenAtLeast.mp (Nat.le_refl (strlen s))).2 k (by omega)
  omega

theorem strlenStopped {s : List UInt8} (short : strlen s < s.length) :
    s.take (strlen s) ++ [0] = s.take (strlen s + 1) := by
  rw [List.take_add_one, strlenStops short]
  rfl

theorem strlenPadding (s : List UInt8) (k : Nat) : strlen (s ++ List.replicate k 0) = strlen s := by
  induction s with
  | nil => cases k <;> simp [strlen, List.replicate_succ]
  | cons b rest ih =>
    by_cases zero : b = 0
    · simp [strlen, zero]
    · simpa [strlen, zero] using ih

section Buffers
variable {α : Type}

def overwrite (buffer chunk : List α) : List α := chunk ++ buffer.drop chunk.length

theorem overwriteTake (buffer chunk : List α) :
    (overwrite buffer chunk).take chunk.length = chunk := by
  simp [overwrite]

end Buffers

structure Cutting {α : Type} (message : List α) (chunks : List (List α)) : Prop where
  joined : chunks.flatten = message
  nonempty : ∀ c ∈ chunks, c ≠ []

section Cuttings
variable {α : Type} {message : List α}

theorem cuttingWhole {chunk : List α} (cut : Cutting message [chunk]) : chunk = message := by
  simpa using cut.joined

theorem cuttingFirst {chunk next : List α} {rest : List (List α)}
    (cut : Cutting message (chunk :: next :: rest)) :
    chunk.length < message.length ∧ chunk = message.take chunk.length := by
  have occupied : 0 < next.length :=
    List.length_pos_iff.mpr (cut.nonempty next (List.mem_cons_of_mem _ List.mem_cons_self))
  rw [← cut.joined]
  simp only [List.flatten_cons, List.length_append, List.take_left, and_true]
  omega

end Cuttings
end Warcaby.ByteStream
