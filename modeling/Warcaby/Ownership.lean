import Warcaby.Accounting

/-! Whose piece a call moves. The ownership test of `make_move` lets either player
pass with any king, so a call keeps to its own pieces exactly as long as no king
of the opponent can move. -/
namespace Warcaby.Ownership
open Grid (Inside get write)
open MakeMove Rule Turn
open Accounting (moved movedCell)

/- A king next to a blank square, or next to an enemy man with a blank square
right behind it. -/
def Free (board : Board) (i j : Fin 8) (dirX dirY : Int) : Prop :=
  Inside 8 8 (i + dirX) (j + dirY) ∧ get board (i + dirX) (j + dirY) = blank

def Takes (board : Board) (i j : Fin 8) (dirX dirY : Int) (prey : Byte) : Prop :=
  get board (i + dirX) (j + dirY) = prey ∧ Inside 8 8 (i + 2 * dirX) (j + 2 * dirY) ∧
    get board (i + 2 * dirX) (j + 2 * dirY) = blank

instance (board i j dirX dirY) : Decidable (Free board i j dirX dirY) := by
  unfold Free; infer_instance
instance (board i j dirX dirY prey) : Decidable (Takes board i j dirX dirY prey) := by
  unfold Takes; infer_instance

def KingMoves (board : Board) (c : Colour) : Prop :=
  ∃ i j : Fin 8, board i j = c.king ∧ ∃ dirX ∈ [(1 : Int),-1], ∃ dirY ∈ [(1 : Int),-1],
    Free board i j dirX dirY ∨ Takes board i j dirX dirY c.other.man
instance (board c) : Decidable (KingMoves board c) := by unfold KingMoves; infer_instance

section King
variable {board : Board} {player : Byte} {m : Ply} {c : Colour}

theorem foeOfKing (c : Colour) : foe c.king = c.other.man := by cases c <;> rfl

theorem kingStands (c : Colour) (here : m.cell board 0 = c.king) : KingStep board m := by
  unfold KingStep
  rw [here]
  exact c.kingLetter

theorem direction {u : Int} : u ∈ [(1 : Int),-1] ↔ u = 1 ∨ u = -1 := by simp

theorem legalKingMoves (legal : Legal board player m) (here : m.cell board 0 = c.king) :
    KingMoves board c := by
  obtain ⟨i, j, row, column, cell⟩ := Play.moverCell legal
  have moves := legal.diagonal.moves
  have square (k : Nat) : m.cell board k = get board (i + k * m.dirX) (j + k * m.dirY) := by
    rw [Ply.cell, Ply.row, Ply.column, row, column]
  have inside (k : Nat) (near : k ≤ m.distance) : Inside 8 8 (i + k * m.dirX) (j + k * m.dirY) := by
    have reached := diagonalInside legal.diagonal near
    rwa [Ply.row, Ply.column, row, column] at reached
  have one := inside 1 (by omega)
  refine ⟨i, j, cell.symm.trans here, m.dirX, direction.mpr legal.diagonal.dirX, m.dirY,
    direction.mpr legal.diagonal.dirY, ?_⟩
  by_cases empty : m.cell board 1 = blank
  · have blankNext := (square 1).symm.trans empty
    simp only [Nat.cast_one, Int.one_mul] at one blankNext
    exact .inl ⟨one, blankNext⟩
  · have further : 1 < m.distance := by
      by_contra near
      have last : m.distance = 1 := by omega
      exact empty (last ▸ legal.empty)
    have passage : Passage board (m.jumping m.jumped) := legal.passage
    have jumped := occupiedJumped passage Nat.one_pos further empty
    have behind : m.cell board 2 = blank := by
      by_cases last : m.distance = 2
      · exact last ▸ legal.empty
      · refine legal.passage.clear 2 (by omega) (by omega) ?_
        rw [jumped.1]
        simp
    have prey := (square 1).symm.trans jumped.2
    have landing := (square 2).symm.trans behind
    have two := inside 2 (by omega)
    rw [here, foeOfKing] at prey
    simp only [Nat.cast_one, Nat.cast_ofNat, Int.one_mul] at prey landing two
    exact .inr ⟨prey, two, landing⟩

theorem freeLegal {i j : Fin 8} {dirX dirY : Int} (king : board i j = c.king)
    (hx : dirX = 1 ∨ dirX = -1) (hy : dirY = 1 ∨ dirY = -1) (free : Free board i j dirX dirY)
    (player : Byte) : Legal board player ⟨i,j,dirX,dirY,1,none⟩ := by
  have near : Inside 8 8 ((i : Int) + (1 : Nat) * dirX) (j + (1 : Nat) * dirY) := by
    simpa using free.1
  refine ⟨⟨hx, hy, Nat.one_pos, Grid.insideCell i j, near⟩, ?_, stepPassage rfl rfl,
    .inr (kingStands c ?_)⟩
  · simpa [Ply.cell, Ply.row, Ply.column] using free.2
  · simpa [Ply.cell, Ply.row, Ply.column] using king

theorem takesLegal {i j : Fin 8} {dirX dirY : Int} (king : board i j = c.king)
    (hx : dirX = 1 ∨ dirX = -1) (hy : dirY = 1 ∨ dirY = -1)
    (takes : Takes board i j dirX dirY c.other.man) (player : Byte) :
    Legal board player ⟨i,j,dirX,dirY,2,some 1⟩ := by
  have near : Inside 8 8 ((i : Int) + (2 : Nat) * dirX) (j + (2 : Nat) * dirY) := by
    simpa using takes.2.1
  have here : Ply.cell ⟨i,j,dirX,dirY,2,some 1⟩ board 0 = c.king := by
    simpa [Ply.cell, Ply.row, Ply.column] using king
  refine ⟨⟨hx, hy, Nat.two_pos, Grid.insideCell i j, near⟩, ?_, middlePassage rfl rfl ?_,
    .inr (kingStands c here)⟩
  · simpa [Ply.cell, Ply.row, Ply.column] using takes.2.2
  · rw [here, foeOfKing]
    simpa [Ply.cell, Ply.row, Ply.column] using takes.1

theorem kingMovesLegal (mobile : KingMoves board c) (player : Byte) :
    ∃ m : Ply, Legal board player m ∧ m.cell board 0 = c.king := by
  obtain ⟨i, j, king, dirX, hx, dirY, hy, reach⟩ := mobile
  have here (d : Nat) (k : Option Nat) : Ply.cell ⟨i,j,dirX,dirY,d,k⟩ board 0 = c.king := by
    simpa [Ply.cell, Ply.row, Ply.column] using king
  rcases reach with free | takes
  · exact ⟨_, freeLegal king (direction.mp hx) (direction.mp hy) free player, here 1 none⟩
  · exact ⟨_, takesLegal king (direction.mp hx) (direction.mp hy) takes player, here 2 (some 1)⟩

theorem legalOwner {p : Colour} (legal : Legal board p.man m) :
    p.owns (m.cell board 0) = true ↔ m.cell board 0 ≠ p.other.king := by
  rcases legal.mover with ⟨d, same, man, _⟩ | king | king
  · rw [man, ← same]; cases p <;> decide
  · rw [king]; cases p <;> decide
  · rw [king]; cases p <;> decide

end King

def StartsOnForeignKing (board : Board) (p : Colour) (inputs : List Coordinates) : Prop :=
  ∃ before m rest, inputs = before ++ Ply.typed m :: rest ∧
    (∀ q ∈ before, Illegal board p.man q) ∧ Legal board p.man m ∧ m.cell board 0 = p.other.king

theorem callOwner {board : Board} {p : Colour} {inputs : List Coordinates} :
    (∀ t, makeMove board p.man inputs = .ok (some t) → p.owns (moved board t) = true) ↔
      ¬ StartsOnForeignKing board p inputs := by
  refine callLaw (fun t m returned => ?_)
  rw [movedCell returned]
  exact legalOwner returned.legal

theorem ownership (board : Board) (p : Colour) :
    (∀ inputs, (∀ t, makeMove board p.man inputs = .ok (some t) → p.owns (moved board t) = true) ↔
      ¬ StartsOnForeignKing board p inputs) ∧
    ((∀ inputs t, makeMove board p.man inputs = .ok (some t) → p.owns (moved board t) = true) ↔
      ¬ KingMoves board p.other) := by
  refine ⟨fun inputs => callOwner, fun owned mobile => ?_, fun stuck inputs => ?_⟩
  · obtain ⟨m, legal, king⟩ := kingMovesLegal mobile p.man
    exact callOwner.mp (owned [m.typed]) ⟨[], m, [], rfl, by simp, legal, king⟩
  · exact callOwner.mpr (fun ⟨_, _, _, _, _, legal, king⟩ => stuck (legalKingMoves legal king))

def foreignKing : Board := write (write (fun _ _ => blank) 2 1 charX) 4 3 charQ

theorem foreignKingMoved :
    ¬ ∀ (board : Board) (p : Colour) (inputs : List Coordinates) (t : MakeMove.Turn),
      GameCells board → makeMove board p.man inputs = .ok (some t) →
      p.owns (moved board t) = true := by
  intro owned
  have mine := owned foreignKing .x [⟨5,4,6,5⟩]
    ⟨Ply.result ⟨4,3,1,1,1,none⟩ foreignKing,⟨5,4,6,5⟩,[],[.prompt,.handOver]⟩ (by decide) rfl
  exact absurd mine (by decide)

end Warcaby.Ownership
