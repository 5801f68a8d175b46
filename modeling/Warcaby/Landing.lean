import Warcaby.Rulebook

/-! Where a king lands when it captures. The scan of the king branch remembers which
square it jumps, but not how far behind that square the target lies, so the king
lands right behind its prey exactly as long as no longer slide is open to it. -/
namespace Warcaby.Landing
open Grid (Inside get write)
open MakeMove Rule Turn
open Accounting (moved movedCell)

/- If a king moved, then every square that was emptied, the source apart, lies right
before the target. -/
def LandsBehind (before : Board) (t : MakeMove.Turn) : Prop :=
  moved before t = charD ∨ moved before t = charQ → ∀ i j : Fin 8,
    ¬ ((i : Int) = t.typed.x1 - 1 ∧ (j : Int) = t.typed.y1 - 1) →
    before i j ≠ blank → t.board i j = blank →
    t.typed.x2 - 1 = i + (t.typed.x2 - t.typed.x1).sign ∧
      t.typed.y2 - 1 = j + (t.typed.y2 - t.typed.y1).sign
instance (before t) : Decidable (LandsBehind before t) := by unfold LandsBehind; infer_instance

def LongSlide (board : Board) : Prop :=
  ∃ (c : Colour) (i j : Fin 8) (k : Nat) (dirX dirY : Int), board i j = c.king ∧
    (dirX = 1 ∨ dirX = -1) ∧ (dirY = 1 ∨ dirY = -1) ∧ 0 < k ∧
    (∀ l : Nat, 0 < l → l < k → get board (i + l * dirX) (j + l * dirY) = blank) ∧
    get board (i + k * dirX) (j + k * dirY) = c.other.man ∧
    Inside 8 8 (i + (k + 2 : Nat) * dirX) (j + (k + 2 : Nat) * dirY) ∧
    get board (i + (k + 1 : Nat) * dirX) (j + (k + 1 : Nat) * dirY) = blank ∧
    get board (i + (k + 2 : Nat) * dirX) (j + (k + 2 : Nat) * dirY) = blank

structure Overshoots (board : Board) (m : Ply) (k : Nat) : Prop where
  king : KingStep board m
  jumped : m.jumped = some k
  far : k + 1 < m.distance

section Ply
variable {board : Board} {player : Byte} {m : Ply}

theorem rowNext (m : Ply) (k : Nat) : m.row (k + 1) = m.row k + m.dirX := by
  rw [Ply.row, Ply.row, Nat.cast_add, Int.add_mul, Nat.cast_one, Int.one_mul, Int.add_assoc]

theorem columnNext (m : Ply) (k : Nat) : m.column (k + 1) = m.column k + m.dirY := by
  rw [Ply.column, Ply.column, Nat.cast_add, Int.add_mul, Nat.cast_one, Int.one_mul, Int.add_assoc]

theorem landsBehind {inputs : List Coordinates} {t : MakeMove.Turn}
    (returned : Returned board player inputs t m) :
    LandsBehind board t ↔ ∀ k, ¬ Overshoots board m k := by
  obtain ⟨legal, result, typed, _⟩ := id returned
  have signs := Rulebook.typedSigns legal.diagonal
  unfold LandsBehind
  rw [movedCell returned, result, typed, signs.1, signs.2]
  have source (i j : Fin 8) : ((i : Int) = m.typed.x1 - 1 ∧ (j : Int) = m.typed.y1 - 1) ↔
      ((i : Int) = m.x ∧ (j : Int) = m.y) := by
    simp only [Ply.typed]
    omega
  have target : m.typed.x2 - 1 = m.row m.distance ∧ m.typed.y2 - 1 = m.column m.distance := by
    simp only [Ply.typed]
    omega
  simp only [source, target.1, target.2]
  constructor
  · rintro lands k ⟨king, jumped, far⟩
    obtain ⟨i, j, row, _, apart, cell, empty⟩ := Accounting.jumpedEmptied legal jumped
    have occupied : board i j ≠ blank := by
      rw [cell, (legal.passage.jump k jumped).2.2]
      exact foeNotBlank _
    have landed := (lands king i j apart occupied empty).1
    rw [← row, ← rowNext] at landed
    exact rowsApart legal.diagonal (by omega) landed
  · intro never king i j apart occupied empty
    rcases Accounting.emptied legal occupied empty with here | ⟨k, jumped, row, column⟩
    · exact absurd here apart
    · obtain ⟨_, near, _⟩ := legal.passage.jump k jumped
      have behind : m.distance = k + 1 := by
        by_contra other
        exact never k ⟨king, jumped, by omega⟩
      rw [behind, row, column, rowNext, columnNext]
      exact ⟨rfl, rfl⟩

theorem overshootsSlide {k : Nat} (legal : Legal board player m) (further : Overshoots board m k) :
    LongSlide board := by
  obtain ⟨i, j, row, column, cell⟩ := Play.moverCell legal
  obtain ⟨king, jumped, far⟩ := further
  obtain ⟨positive, near, prey⟩ := legal.passage.jump k jumped
  have square (l : Nat) : m.cell board l = get board (i + l * m.dirX) (j + l * m.dirY) := by
    rw [Ply.cell, Ply.row, Ply.column, row, column]
  have open' : ∀ l, 0 < l → l ≤ m.distance → l ≠ k → m.cell board l = blank := by
    intro l first last other
    by_cases target : l = m.distance
    · rw [target]; exact legal.empty
    · refine legal.passage.clear l first (by omega) ?_
      rw [jumped]
      exact fun same => other (Option.some.inj same).symm
  have inside := diagonalInside legal.diagonal (k := k + 2) (by omega)
  rw [Ply.row, Ply.column, row, column] at inside
  obtain ⟨c, crown⟩ : ∃ c : Colour, m.cell board 0 = c.king := by
    rcases king with d | q
    · exact ⟨.x, d⟩
    · exact ⟨.o, q⟩
  rw [crown, Ownership.foeOfKing] at prey
  refine ⟨c, i, j, k, m.dirX, m.dirY, cell.symm.trans crown, legal.diagonal.dirX,
    legal.diagonal.dirY, positive, fun l first below => ?_, ?_, inside, ?_, ?_⟩
  · rw [← square]; exact open' l first (by omega) (by omega)
  · rw [← square]; exact prey
  · rw [← square]; exact open' (k + 1) (by omega) (by omega) (by omega)
  · rw [← square]; exact open' (k + 2) (by omega) (by omega) (by omega)

theorem slideOvershoots (slide : LongSlide board) (player : Byte) :
    ∃ m k, Legal board player m ∧ Overshoots board m k := by
  obtain ⟨c, i, j, k, dirX, dirY, king, hx, hy, positive, reached, prey, inside, one, two⟩ := slide
  have cells (l : Nat) : Ply.cell ⟨i,j,dirX,dirY,k + 2,some k⟩ board l =
      get board (i + l * dirX) (j + l * dirY) := rfl
  have here : Ply.cell ⟨i,j,dirX,dirY,k + 2,some k⟩ board 0 = c.king := by
    rw [cells]
    simpa using king
  have stands := Ownership.kingStands c here
  have passage : Passage board ⟨i,j,dirX,dirY,k + 2,some k⟩ := by
    refine jumpPassage rfl ⟨positive, by change k < k + 2; omega⟩ ?_ (fun l first below other => ?_)
    · rw [here, Ownership.foeOfKing, cells]
      exact prey
    · change l < k + 2 at below
      rw [cells]
      rcases Nat.lt_or_gt_of_ne other with before | after
      · exact reached l first before
      · have next : l = k + 1 := by omega
        rw [next]
        exact one
  have diagonal : Diagonal ⟨i,j,dirX,dirY,k + 2,some k⟩ :=
    ⟨hx, hy, Nat.succ_pos _, Grid.insideCell i j, inside⟩
  exact ⟨_, k, ⟨diagonal, two, passage, .inr stands⟩, stands, rfl, Nat.lt_succ_self _⟩

end Ply

def LandsFurther (board : Board) (p : Colour) (inputs : List Coordinates) : Prop :=
  FirstLegal board p.man inputs (fun m => ∃ k, Overshoots board m k)

theorem callLands {board : Board} {p : Colour} {inputs : List Coordinates} :
    (∀ t, makeMove board p.man inputs = .ok (some t) → LandsBehind board t) ↔
      ¬ LandsFurther board p inputs :=
  callLaw (fun _ _ returned => (landsBehind returned).trans not_exists.symm)

theorem kingLanding (board : Board) (p : Colour) :
    (∀ inputs, (∀ t, makeMove board p.man inputs = .ok (some t) → LandsBehind board t) ↔
      ¬ LandsFurther board p inputs) ∧
    ((∀ inputs t, makeMove board p.man inputs = .ok (some t) → LandsBehind board t) ↔
      ¬ LongSlide board) := by
  refine ⟨fun inputs => callLands, fun lands slide => ?_, fun short inputs => ?_⟩
  · obtain ⟨m, k, legal, further⟩ := slideOvershoots slide p.man
    exact callLands.mp (lands [m.typed]) ⟨[], m, [], rfl, by simp, legal, k, further⟩
  · exact callLands.mpr (fun ⟨_, _, _, _, _, legal, _, further⟩ =>
      short (overshootsSlide legal further))

def openDiagonal : Board := write (write (fun _ _ => blank) 1 0 charD) 2 1 charO

theorem kingLandsFurther : WellFormed openDiagonal ∧
    ∃ t, makeMove openDiagonal charX [⟨2,1,5,4⟩] = .ok (some t) ∧ ¬ LandsBehind openDiagonal t :=
  ⟨by decide, _, rfl, by decide⟩

end Warcaby.Landing
