import Warcaby.MakeMove

/-! The rule of the game, stated without the loop: a ply is one piece going a
distance along one diagonal, over at most one enemy man. `pass` accepts four
integers exactly when they spell a legal ply, and then performs it. -/
namespace Warcaby.Rule
open Grid (Inside get write getWrite)
open MakeMove

/- Squares of a ply are numbered along its diagonal: 0 is the source, `distance`
the target. `jumped` is the number of the square whose man is captured. -/
structure Ply where
  x : Int
  y : Int
  dirX : Int
  dirY : Int
  distance : Nat
  jumped : Option Nat
  deriving DecidableEq, Repr

namespace Ply

def row (m : Ply) (k : Nat) : Int := m.x + k * m.dirX
def column (m : Ply) (k : Nat) : Int := m.y + k * m.dirY
def cell (m : Ply) (board : Board) (k : Nat) : Byte := get board (m.row k) (m.column k)
def vars (m : Ply) : Coordinates := ⟨m.x,m.y,m.row m.distance,m.column m.distance⟩
def typed (m : Ply) : Coordinates :=
  ⟨m.x + 1,m.y + 1,m.row m.distance + 1,m.column m.distance + 1⟩

end Ply

/- The enemy man of a piece. A king is never captured. -/
def foe (piece : Byte) : Byte := if piece = charX ∨ piece = charD then charO else charX

def crowned (piece : Byte) (row : Int) : Byte :=
  if piece = charX ∧ row = boardSize - 1 then charD
  else if piece = charO ∧ row = 0 then charQ
  else piece

def ManStep (player : Byte) (board : Board) (m : Ply) : Prop :=
  ∃ c : Colour, player = c.man ∧ m.cell board 0 = c.man ∧ m.dirX = c.forward ∧
    (m.distance = 1 ∨ m.distance = 2 ∧ m.jumped = some 1)

def KingStep (board : Board) (m : Ply) : Prop :=
  m.cell board 0 = charD ∨ m.cell board 0 = charQ

structure Diagonal (m : Ply) : Prop where
  dirX : m.dirX = 1 ∨ m.dirX = -1
  dirY : m.dirY = 1 ∨ m.dirY = -1
  moves : 0 < m.distance
  source : Inside 8 8 m.x m.y
  target : Inside 8 8 (m.row m.distance) (m.column m.distance)

instance (m) : Decidable (Diagonal m) :=
  decidable_of_iff ((m.dirX = 1 ∨ m.dirX = -1) ∧ (m.dirY = 1 ∨ m.dirY = -1) ∧ 0 < m.distance ∧
      Inside 8 8 m.x m.y ∧ Inside 8 8 (m.row m.distance) (m.column m.distance))
    ⟨fun ⟨dirX, dirY, moves, source, target⟩ => ⟨dirX, dirY, moves, source, target⟩,
      fun ⟨dirX, dirY, moves, source, target⟩ => ⟨dirX, dirY, moves, source, target⟩⟩

-- Strictly between source and target only the jumped man stands.
structure Passage (board : Board) (m : Ply) : Prop where
  jump : ∀ k, m.jumped = some k → 0 < k ∧ k < m.distance ∧ m.cell board k = foe (m.cell board 0)
  clear : ∀ k, 0 < k → k < m.distance → m.jumped ≠ some k → m.cell board k = blank

structure Legal (board : Board) (player : Byte) (m : Ply) : Prop where
  diagonal : Diagonal m
  empty : m.cell board m.distance = blank
  passage : Passage board m
  mover : ManStep player board m ∨ KingStep board m

def Ply.moved (m : Ply) (board : Board) : Board :=
  write (write board (m.row m.distance) (m.column m.distance)
    (crowned (m.cell board 0) (m.row m.distance))) m.x m.y blank

def Ply.result (m : Ply) (board : Board) : Board :=
  match m.jumped with
  | some k => write (m.moved board) (m.row k) (m.column k) blank
  | none => m.moved board

namespace Ply

@[simp] theorem rowZero (m : Ply) : m.row 0 = m.x := by simp [row]
@[simp] theorem columnZero (m : Ply) : m.column 0 = m.y := by simp [column]

end Ply

theorem rowsApart {m : Ply} (diagonal : Diagonal m) {k l : Nat} (different : k ≠ l) :
    m.row k ≠ m.row l := by
  unfold Ply.row
  rcases diagonal.dirX with h | h <;> rw [h] <;> omega

theorem diagonalInside {m : Ply} (diagonal : Diagonal m) {k : Nat} (near : k ≤ m.distance) :
    Inside 8 8 (m.row k) (m.column k) := by
  obtain ⟨dirX, dirY, _, source, target⟩ := diagonal
  unfold Inside Ply.row Ply.column at *
  rcases dirX with h | h <;> rcases dirY with h' | h' <;> simp only [h, h'] at target ⊢ <;> omega

theorem diagonalLength {m : Ply} (diagonal : Diagonal m) :
    (m.vars.x2 - m.vars.x1).natAbs = m.distance ∧ (m.vars.y2 - m.vars.y1).natAbs = m.distance := by
  simp only [Ply.vars, Ply.row, Ply.column]
  rcases diagonal.dirX with h | h <;> rcases diagonal.dirY with h' | h' <;> rw [h, h'] <;> omega

theorem ownerAt {board : Board} {m : Ply} {v : Coordinates} {piece : Byte}
    (here : get board v.x1 v.y1 = piece) (vars : m.vars = v) : m.cell board 0 = piece := by
  subst vars
  rw [Ply.cell, Ply.rowZero, Ply.columnZero]
  exact here

theorem foeNotBlank (piece : Byte) : foe piece ≠ blank := by
  unfold foe; split <;> decide

theorem stepPassage {board : Board} {m : Ply} (one : m.distance = 1) (alone : m.jumped = none) :
    Passage board m := by
  refine ⟨fun k jumped => ?_, fun k positive near _ => ?_⟩
  · rw [alone] at jumped
    cases jumped
  · omega

theorem jumpPassage {board : Board} {m : Ply} {k : Nat} (jumped : m.jumped = some k)
    (inside : 0 < k ∧ k < m.distance) (prey : m.cell board k = foe (m.cell board 0))
    (clear : ∀ l, 0 < l → l < m.distance → l ≠ k → m.cell board l = blank) : Passage board m := by
  refine ⟨fun l same => ?_, fun l positive near other => ?_⟩
  · have here : l = k := Option.some.inj (same.symm.trans jumped)
    rw [here]
    exact ⟨inside.1, inside.2, prey⟩
  · exact clear l positive near (fun same => other (same ▸ jumped))

theorem middlePassage {board : Board} {m : Ply} (two : m.distance = 2) (jumped : m.jumped = some 1)
    (prey : m.cell board 1 = foe (m.cell board 0)) : Passage board m :=
  jumpPassage jumped (by omega) prey (fun l positive near other => absurd (by omega) other)

def Ply.jumping (m : Ply) (jumped : Option Nat) : Ply := {m with jumped := jumped}

theorem occupiedJumped {board : Board} {m : Ply} {j : Option Nat} (passage : Passage board (m.jumping j))
    {k : Nat} (positive : 0 < k) (near : k < m.distance) (occupied : m.cell board k ≠ blank) :
    j = some k ∧ m.cell board k = foe (m.cell board 0) := by
  have jumped : j = some k := by
    by_contra other
    exact occupied (passage.clear k positive near other)
  exact ⟨jumped, (passage.jump k jumped).2.2⟩

theorem passageUnique {board : Board} {m : Ply} {i j : Option Nat} (left : Passage board (m.jumping i))
    (right : Passage board (m.jumping j)) : i = j := by
  have same : ∀ {a b}, Passage board (m.jumping a) → Passage board (m.jumping b) →
      ∀ k, a = some k → b = some k := by
    intro a b first second k jumped
    obtain ⟨positive, near, found⟩ := first.jump k jumped
    exact (occupiedJumped second positive near (fun empty => foeNotBlank _ (found.symm.trans empty))).1
  cases i with
  | some k => exact (same left right k rfl).symm
  | none =>
    cases j with
    | none => rfl
    | some k => exact same right left k rfl

def Ply.along (v : Coordinates) (jumped : Option Nat) : Ply :=
  ⟨v.x1,v.y1,(v.x2 - v.x1).sign,(v.y2 - v.y1).sign,(v.x2 - v.x1).natAbs,jumped⟩

section Along
variable {v : Coordinates}

theorem alongVars (slope : (v.x2 - v.x1).natAbs = (v.y2 - v.y1).natAbs) (jumped : Option Nat) :
    (Ply.along v jumped).vars = v := by
  have first := Int.sign_mul_natAbs (v.x2 - v.x1)
  have second := Int.sign_mul_natAbs (v.y2 - v.y1)
  rw [Int.mul_comm] at first second
  rw [← slope] at second
  have row : v.x1 + ((v.x2 - v.x1).natAbs : Int) * (v.x2 - v.x1).sign = v.x2 := by omega
  have column : v.y1 + ((v.x2 - v.x1).natAbs : Int) * (v.y2 - v.y1).sign = v.y2 := by omega
  simp only [Ply.along, Ply.vars, Ply.row, Ply.column, row, column]

theorem signOfMove {a : Int} (moves : a ≠ 0) : a.sign = 1 ∨ a.sign = -1 := by
  rcases Int.lt_or_gt_of_ne moves with h | h
  · exact .inr (Int.sign_eq_neg_one_of_neg h)
  · exact .inl (Int.sign_eq_one_of_pos h)

theorem alongDiagonal (slope : (v.x2 - v.x1).natAbs = (v.y2 - v.y1).natAbs) (moves : v.x2 ≠ v.x1)
    (source : Inside 8 8 v.x1 v.y1) (target : Inside 8 8 v.x2 v.y2) (jumped : Option Nat) :
    Diagonal (Ply.along v jumped) := by
  have vars := alongVars slope jumped
  have row := congrArg Coordinates.x2 vars
  have column := congrArg Coordinates.y2 vars
  change (Ply.along v jumped).row (Ply.along v jumped).distance = v.x2 at row
  change (Ply.along v jumped).column (Ply.along v jumped).distance = v.y2 at column
  exact ⟨signOfMove (by omega), signOfMove (by omega), by change 0 < (v.x2 - v.x1).natAbs; omega,
    source, by rw [row, column]; exact target⟩

theorem alongOfVars {m : Ply} (diagonal : Diagonal m) : Ply.along m.vars m.jumped = m := by
  have length := diagonalLength diagonal
  have sign {u : Int} (direction : u = 1 ∨ u = -1) : ((m.distance : Int) * u).sign = u := by
    rcases direction with rfl | rfl
    · rw [Int.mul_one]; exact Int.sign_eq_one_of_pos (Int.natCast_pos.mpr diagonal.moves)
    · rw [Int.mul_neg, Int.mul_one, Int.sign_neg]
      exact congrArg Neg.neg (Int.sign_eq_one_of_pos (Int.natCast_pos.mpr diagonal.moves))
  have alongX : (m.vars.x2 - m.vars.x1).sign = m.dirX := by
    rw [show m.vars.x2 - m.vars.x1 = m.distance * m.dirX by simp [Ply.vars, Ply.row]]
    exact sign diagonal.dirX
  have alongY : (m.vars.y2 - m.vars.y1).sign = m.dirY := by
    rw [show m.vars.y2 - m.vars.y1 = m.distance * m.dirY by simp [Ply.vars, Ply.column]]
    exact sign diagonal.dirY
  unfold Ply.along
  rw [alongX, alongY, length.1]
  rfl

end Along

section Effect
variable {board : Board} {m : Ply}

theorem movedCases (m : Ply) (board : Board) (i j : Fin 8) :
    m.moved board i j = blank ∨
    ((i : Int) = m.row m.distance ∧ (j : Int) = m.column m.distance ∧
      m.moved board i j = crowned (m.cell board 0) (m.row m.distance)) ∨
    m.moved board i j = board i j := by
  simp only [Ply.moved, Grid.writeCell]
  split
  · exact .inl rfl
  · split
    · rename_i here
      exact .inr (.inl ⟨here.1, here.2, rfl⟩)
    · exact .inr (.inr rfl)

theorem resultCases (m : Ply) (board : Board) (i j : Fin 8) :
    m.result board i j = blank ∨
    ((i : Int) = m.row m.distance ∧ (j : Int) = m.column m.distance ∧
      m.result board i j = crowned (m.cell board 0) (m.row m.distance)) ∨
    m.result board i j = board i j := by
  unfold Ply.result
  cases m.jumped with
  | none => exact movedCases m board i j
  | some k =>
    simp only [Grid.writeCell (m.moved board)]
    split
    · exact .inl rfl
    · exact movedCases m board i j

theorem movedInside (diagonal : Diagonal m) {k : Nat} (positive : 0 < k) (near : k < m.distance) :
    m.cell (m.moved board) k = m.cell board k := by
  have notSource : ¬ (m.row k = m.x ∧ m.column k = m.y) := by
    rintro ⟨same, _⟩
    rw [← Ply.rowZero m] at same
    exact rowsApart diagonal (by omega) same
  have notTarget : ¬ (m.row k = m.row m.distance ∧ m.column k = m.column m.distance) :=
    fun same => rowsApart diagonal (by omega) same.1
  rw [Ply.cell, Ply.moved, getWrite _ diagonal.source, if_neg notSource,
    getWrite _ diagonal.target, if_neg notTarget, Ply.cell]

theorem sourceNotTarget (diagonal : Diagonal m) :
    ¬ (m.row m.distance = m.x ∧ m.column m.distance = m.y) := by
  have apart := rowsApart diagonal (k := m.distance) (l := 0) (Nat.pos_iff_ne_zero.mp diagonal.moves)
  rw [Ply.rowZero] at apart
  exact fun same => apart same.1

def jumpedWeight (weight : Int → Int → Byte → Nat) (m : Ply) (board : Board) : Nat :=
  match m.jumped with
  | some k => weight (m.row k) (m.column k) (m.cell board k)
  | none => 0

theorem movedTotal (diagonal : Diagonal m) (empty : m.cell board m.distance = blank)
    {weight : Int → Int → Byte → Nat} (blanks : ∀ x y, weight x y blank = 0) :
    Grid.total weight (m.moved board) + weight m.x m.y (m.cell board 0) =
      Grid.total weight board + weight (m.row m.distance) (m.column m.distance)
        (crowned (m.cell board 0) (m.row m.distance)) := by
  have landing := Grid.totalWrite weight board diagonal.target
    (crowned (m.cell board 0) (m.row m.distance))
  have vacant : get board (m.row m.distance) (m.column m.distance) = blank := empty
  rw [vacant, blanks] at landing
  have leaving := Grid.totalWrite weight (write board (m.row m.distance) (m.column m.distance)
    (crowned (m.cell board 0) (m.row m.distance))) diagonal.source blank
  have apart : ¬ (m.x = m.row m.distance ∧ m.y = m.column m.distance) :=
    fun same => sourceNotTarget diagonal ⟨same.1.symm, same.2.symm⟩
  rw [getWrite _ diagonal.target, if_neg apart, blanks] at leaving
  have here : m.cell board 0 = get board m.x m.y := by rw [Ply.cell, Ply.rowZero, Ply.columnZero]
  rw [← here] at leaving
  unfold Ply.moved
  omega

theorem resultTotal (diagonal : Diagonal m) (empty : m.cell board m.distance = blank)
    (passage : Passage board m) {weight : Int → Int → Byte → Nat}
    (blanks : ∀ x y, weight x y blank = 0) :
    Grid.total weight (m.result board) + weight m.x m.y (m.cell board 0) +
        jumpedWeight weight m board =
      Grid.total weight board + weight (m.row m.distance) (m.column m.distance)
        (crowned (m.cell board 0) (m.row m.distance)) := by
  have moving := movedTotal diagonal empty blanks
  unfold Ply.result jumpedWeight
  cases jumped : m.jumped with
  | none => rw [Nat.add_zero, moving]
  | some k =>
    obtain ⟨positive, near, _⟩ := passage.jump k jumped
    have capturing := Grid.totalWrite weight (m.moved board)
      (diagonalInside diagonal (Nat.le_of_lt near)) blank
    have kept : get (m.moved board) (m.row k) (m.column k) = m.cell board k :=
      movedInside diagonal positive near
    rw [kept, blanks] at capturing
    dsimp only
    omega

theorem crownedMan (c : Colour) (row : Int) :
    crowned c.man row = if row = c.lastRow then c.king else c.man := by
  unfold crowned
  split
  · rename_i last
    cases c with
    | x => exact (if_pos last.2).symm
    | o => exact absurd last.1 (by decide)
  · rename_i notX
    split
    · rename_i last
      cases c with
      | x => exact absurd last.1 (by decide)
      | o => exact (if_pos last.2).symm
    · rename_i notO
      cases c with
      | x => exact (if_neg (fun last => notX ⟨rfl, last⟩)).symm
      | o => exact (if_neg (fun last => notO ⟨rfl, last⟩)).symm

theorem crownedOther {piece : Byte} (other : ∀ c : Colour, piece ≠ c.man) (row : Int) :
    crowned piece row = piece := by
  have notX : piece ≠ charX := other .x
  have notO : piece ≠ charO := other .o
  simp only [crowned, notX, notO, false_and, if_false]

theorem crownedOwner (c : Colour) (piece : Byte) (row : Int) :
    c.owns (crowned piece row) = c.owns piece := by
  unfold crowned
  split
  · rename_i man
    rw [man.1]
    cases c <;> decide
  · split
    · rename_i man
      rw [man.1]
      cases c <;> decide
    · rfl

theorem crownedNotMan (c : Colour) (piece : Byte) : crowned piece c.lastRow ≠ c.man := by
  by_cases man : piece = c.man
  · subst man
    cases c <;> decide
  · unfold crowned
    split
    · cases c <;> decide
    · split
      · cases c <;> decide
      · exact man

end Effect

end Warcaby.Rule
