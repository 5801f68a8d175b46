import Warcaby.Rulebook

/-! No side is favoured. A reflection of the board along either axis, the one along
the rows together with an exchange of the colours, carries legal quadruples to
legal quadruples and results to results, so calls and their reflections agree. -/
namespace Warcaby.Symmetry
open Grid (Inside)
open MakeMove Rule Rulebook

def swapped (cell : Byte) : Byte :=
  if cell = charX then charO
  else if cell = charO then charX
  else if cell = charD then charQ
  else if cell = charQ then charD
  else cell

inductive Axis where
  | rows
  | columns
  deriving DecidableEq, Repr

namespace Axis

def row : Axis → Int → Int
  | rows, x => boardSize + 1 - x
  | columns, x => x

def column : Axis → Int → Int
  | rows, y => y
  | columns, y => boardSize + 1 - y

def cell : Axis → Byte → Byte
  | rows, c => swapped c
  | columns, c => c

def player : Axis → Colour → Colour
  | rows, p => p.other
  | columns, p => p

def board : Axis → Board → Board
  | rows, b => fun i j => swapped (b i.rev j)
  | columns, b => fun i j => b i j.rev

def typed (a : Axis) (q : Coordinates) : Coordinates :=
  ⟨a.row q.x1,a.column q.y1,a.row q.x2,a.column q.y2⟩

end Axis

section Twice

theorem swappedTwice (cell : Byte) : swapped (swapped cell) = cell := by
  unfold swapped
  by_cases x : cell = charX
  · subst x; rfl
  · by_cases o : cell = charO
    · subst o; rfl
    · by_cases d : cell = charD
      · subst d; rfl
      · by_cases q : cell = charQ
        · subst q; rfl
        · simp only [x, o, d, q, if_false]

theorem cellTwice (a : Axis) (cell : Byte) : a.cell (a.cell cell) = cell := by
  cases a with
  | rows => exact swappedTwice cell
  | columns => rfl

theorem boardTwice (a : Axis) (board : Board) : a.board (a.board board) = board := by
  cases a with
  | rows => funext i j; simp [Axis.board, swappedTwice]
  | columns => funext i j; simp [Axis.board]

theorem playerTwice (a : Axis) (p : Colour) : a.player (a.player p) = p := by
  cases a with
  | rows => exact p.otherOther
  | columns => rfl

theorem typedTwice (a : Axis) (q : Coordinates) : a.typed (a.typed q) = q := by
  cases a <;> simp [Axis.typed, Axis.row, Axis.column]

end Twice

section Cells
variable (a : Axis)

theorem cellBlank {cell : Byte} : a.cell cell = blank ↔ cell = blank := by
  have empty : a.cell blank = blank := by cases a <;> rfl
  constructor
  · intro same
    have twice := cellTwice a cell
    rw [same, empty] at twice
    exact twice.symm
  · rintro rfl
    exact empty

theorem cellMan (c : Colour) : a.cell c.man = (a.player c).man := by
  cases a <;> cases c <;> rfl

theorem cellKing (c : Colour) : a.cell c.king = (a.player c).king := by
  cases a <;> cases c <;> rfl

theorem playerOther (c : Colour) : (a.player c).other = a.player c.other := by
  cases a <;> rfl

theorem boardCell (board : Board) (x y : Int) :
    square (a.board board) (a.row x) (a.column y) = a.cell (square board x y) := by
  unfold square
  by_cases inside : Inside 8 8 (x - 1) (y - 1)
  · obtain ⟨i, j, row, column⟩ := Grid.insideIndices inside
    cases a with
    | rows =>
      have flipped : Axis.rows.row x - 1 = (i.rev : Fin 8) := by
        simp only [Axis.row, boardSize, Fin.val_rev]; omega
      have kept : Axis.rows.column y - 1 = j := column
      rw [flipped, kept, row, column, Grid.getCell, Grid.getCell]
      simp [Axis.board, Axis.cell]
    | columns =>
      have kept : Axis.columns.row x - 1 = i := row
      have flipped : Axis.columns.column y - 1 = (j.rev : Fin 8) := by
        simp only [Axis.column, boardSize, Fin.val_rev]; omega
      rw [flipped, kept, row, column, Grid.getCell, Grid.getCell]
      simp [Axis.board, Axis.cell]
  · have outside : ¬ Inside 8 8 (a.row x - 1) (a.column y - 1) := by
      unfold Inside at inside ⊢
      cases a <;> simp only [Axis.row, Axis.column, boardSize] <;> omega
    rw [Grid.get, Grid.get, dif_neg inside, dif_neg outside]
    cases a <;> rfl

theorem steppedRow (q : Coordinates) (k : Nat) :
    (a.typed q).x1 + k * ((a.typed q).x2 - (a.typed q).x1).sign =
      a.row (q.x1 + k * (q.x2 - q.x1).sign) := by
  cases a with
  | rows =>
    have turned : boardSize + 1 - q.x2 - (boardSize + 1 - q.x1) = -(q.x2 - q.x1) := by omega
    simp only [Axis.typed, Axis.row, turned, Int.sign_neg, Int.mul_neg]
    omega
  | columns => rfl

theorem steppedColumn (q : Coordinates) (k : Nat) :
    (a.typed q).y1 + k * ((a.typed q).y2 - (a.typed q).y1).sign =
      a.column (q.y1 + k * (q.y2 - q.y1).sign) := by
  cases a with
  | rows => rfl
  | columns =>
    have turned : boardSize + 1 - q.y2 - (boardSize + 1 - q.y1) = -(q.y2 - q.y1) := by omega
    simp only [Axis.typed, Axis.column, turned, Int.sign_neg, Int.mul_neg]
    omega

theorem boardStepped (board : Board) (q : Coordinates) (k : Nat) :
    stepped (a.board board) (a.typed q) k = a.cell (stepped board q k) := by
  rw [stepped, steppedRow, steppedColumn, boardCell, stepped]

theorem typedLengths (q : Coordinates) :
    ((a.typed q).x2 - (a.typed q).x1).natAbs = (q.x2 - q.x1).natAbs ∧
      ((a.typed q).y2 - (a.typed q).y1).natAbs = (q.y2 - q.y1).natAbs := by
  cases a with
  | rows => exact ⟨by simp only [Axis.typed, Axis.row]; omega, rfl⟩
  | columns => exact ⟨rfl, by simp only [Axis.typed, Axis.column]; omega⟩

end Cells

section Moves
variable {board : Board} {p : Colour} {q : Coordinates} (a : Axis)

theorem manReflected (man : ManMove board p q) :
    ManMove (a.board board) (a.player p) (a.typed q) := by
  obtain ⟨source, k, row, column, reach⟩ := man
  refine ⟨?_, k, ?_, ?_, ?_⟩
  · rw [← cellMan, ← source]
    exact boardCell a board q.x1 q.y1
  · cases a with
    | rows =>
      cases p <;>
        simp only [Axis.typed, Axis.row, Axis.player, Colour.other, Colour.forward] at row ⊢ <;> omega
    | columns => exact row
  · cases a with
    | rows => exact column
    | columns => simp only [Axis.typed, Axis.column]; omega
  · rcases reach with one | ⟨two, captured⟩
    · exact .inl one
    · refine .inr ⟨two, ?_⟩
      have rows : ((a.typed q).x1 + (a.typed q).x2) / 2 = a.row ((q.x1 + q.x2) / 2) := by
        cases a with
        | rows =>
          cases p <;> simp only [Axis.typed, Axis.row, boardSize, Colour.forward] at row ⊢ <;> omega
        | columns => rfl
      have columns : ((a.typed q).y1 + (a.typed q).y2) / 2 = a.column ((q.y1 + q.y2) / 2) := by
        cases a with
        | rows => rfl
        | columns => simp only [Axis.typed, Axis.column, boardSize]; omega
      rw [playerOther, ← cellMan, ← captured, middle, rows, columns, boardCell, middle]

theorem kingReflected {c : Colour} {n : Nat} (king : KingMove board c q n) :
    KingMove (a.board board) (a.player c) (a.typed q) n := by
  obtain ⟨source, moves, rows, columns, between, one⟩ := king
  have lengths := typedLengths a q
  refine ⟨?_, moves, lengths.1.trans rows, lengths.2.trans columns, ?_, ?_⟩
  · rw [← cellKing, ← source]
    exact boardCell a board q.x1 q.y1
  · intro i positive near full
    rw [boardStepped] at full ⊢
    rw [between i positive near (fun empty => full ((cellBlank a).mpr empty)), cellMan, playerOther]
  · intro i j positive before near
    rw [boardStepped, boardStepped, cellBlank, cellBlank]
    exact one i j positive before near

theorem onBoardReflected (onBoard : OnBoard q) : OnBoard (a.typed q) := by
  obtain ⟨x1, y1, x2, y2⟩ := onBoard
  simp only [boardSize] at x1 y1 x2 y2
  cases a <;> constructor <;> simp only [Axis.typed, Axis.row, Axis.column, boardSize] <;> omega

theorem legalReflected (legal : LegalMove board p q) :
    LegalMove (a.board board) (a.player p) (a.typed q) := by
  refine ⟨onBoardReflected a legal.onBoard, ?_, ?_⟩
  · have target := boardCell a board q.x2 q.y2
    rw [legal.empty] at target
    exact target.trans ((cellBlank a).mpr rfl)
  · rcases legal.piece with man | ⟨c, n, king⟩
    · exact .inl (manReflected a man)
    · exact .inr ⟨a.player c, n, kingReflected a king⟩

theorem legalReflects :
    LegalMove (a.board board) (a.player p) (a.typed q) ↔ LegalMove board p q := by
  constructor
  · intro legal
    have twice := legalReflected a legal
    rwa [boardTwice, playerTwice, typedTwice] at twice
  · exact legalReflected a

end Moves

section Effect
variable {board : Board} {q : Coordinates} (a : Axis)

def rowIndex : Axis → Fin 8 → Fin 8
  | .rows, i => i.rev
  | .columns, i => i

def columnIndex : Axis → Fin 8 → Fin 8
  | .rows, j => j
  | .columns, j => j.rev

theorem boardAt (board : Board) (i j : Fin 8) :
    a.board board i j = a.cell (board (rowIndex a i) (columnIndex a j)) := by
  cases a <;> rfl

theorem rowIndexTyped (i : Fin 8) (x : Int) : (i : Int) + 1 = a.row x ↔ (rowIndex a i : Int) + 1 = x := by
  cases a with
  | rows => simp only [rowIndex, Axis.row, boardSize, Fin.val_rev]; omega
  | columns => rfl

theorem columnIndexTyped (j : Fin 8) (y : Int) :
    (j : Int) + 1 = a.column y ↔ (columnIndex a j : Int) + 1 = y := by
  cases a with
  | rows => rfl
  | columns => simp only [columnIndex, Axis.column, boardSize, Fin.val_rev]; omega

theorem lastRowReflected (c : Colour) (i : Fin 8) :
    (i : Int) = (a.player c).lastRow ↔ (rowIndex a i : Int) = c.lastRow := by
  cases a with
  | columns => rfl
  | rows =>
    cases c <;>
      simp only [rowIndex, Axis.player, Colour.other, Colour.lastRow, boardSize, Fin.val_rev] <;> omega

theorem crownedReflected (piece : Byte) (i : Fin 8) :
    crowned (a.cell piece) i = a.cell (crowned piece (rowIndex a i)) := by
  by_cases man : ∃ c : Colour, piece = c.man
  · obtain ⟨c, rfl⟩ := man
    rw [cellMan, crownedMan, crownedMan]
    simp only [lastRowReflected]
    split
    · exact (cellKing a c).symm
    · exact (cellMan a c).symm
  · push Not at man
    have other : ∀ c : Colour, a.cell piece ≠ c.man := by
      intro c same
      have twice : a.cell (a.cell piece) = piece := cellTwice a piece
      rw [same, cellMan] at twice
      exact man _ twice.symm
    rw [crownedOther man, crownedOther other]

theorem betweenReflected (i j : Fin 8) :
    Between (a.typed q) ((i : Int) + 1) ((j : Int) + 1) ↔
      Between q ((rowIndex a i : Int) + 1) ((columnIndex a j : Int) + 1) := by
  unfold Between
  simp only [steppedRow, steppedColumn, (typedLengths a q).1, rowIndexTyped, columnIndexTyped]

theorem appliedReflected (board : Board) (q : Coordinates) :
    applied (a.board board) (a.typed q) = a.board (applied board q) := by
  funext i j
  have source : (i : Int) + 1 = (a.typed q).x1 ∧ (j : Int) + 1 = (a.typed q).y1 ↔
      (rowIndex a i : Int) + 1 = q.x1 ∧ (columnIndex a j : Int) + 1 = q.y1 :=
    and_congr (rowIndexTyped a i q.x1) (columnIndexTyped a j q.y1)
  have target : (i : Int) + 1 = (a.typed q).x2 ∧ (j : Int) + 1 = (a.typed q).y2 ↔
      (rowIndex a i : Int) + 1 = q.x2 ∧ (columnIndex a j : Int) + 1 = q.y2 :=
    and_congr (rowIndexTyped a i q.x2) (columnIndexTyped a j q.y2)
  have piece : square (a.board board) (a.typed q).x1 (a.typed q).y1 = a.cell (square board q.x1 q.y1) :=
    boardCell a board q.x1 q.y1
  have empty : a.cell blank = blank := (cellBlank a).mpr rfl
  rw [boardAt]
  simp only [applied, source, target, betweenReflected, piece, crownedReflected, boardAt]
  split
  · exact empty.symm
  · split
    · rfl
    · split
      · exact empty.symm
      · rfl

end Effect

section Calls

def reflectBoard (axes : List Axis) (board : Board) : Board := axes.foldr Axis.board board
def reflectPlayer (axes : List Axis) (p : Colour) : Colour := axes.foldr Axis.player p
def reflectTyped (axes : List Axis) (q : Coordinates) : Coordinates := axes.foldr Axis.typed q

theorem legalReflectsAll (axes : List Axis) {board : Board} {p : Colour} {q : Coordinates} :
    LegalMove (reflectBoard axes board) (reflectPlayer axes p) (reflectTyped axes q) ↔
      LegalMove board p q := by
  induction axes with
  | nil => rfl
  | cons a axes ih => exact (legalReflects a).trans ih

theorem appliedReflectedAll (axes : List Axis) (board : Board) (q : Coordinates) :
    applied (reflectBoard axes board) (reflectTyped axes q) = reflectBoard axes (applied board q) := by
  induction axes with
  | nil => rfl
  | cons a axes ih => exact (appliedReflected a _ _).trans (congrArg a.board ih)

theorem returnsReflected (axes : List Axis) {board : Board} {p : Colour} {inputs : Inputs} {k : Nat}
    {result : Board} (returns : ∃ t, ReturnsAt board p.man inputs k t ∧ t.board = result) :
    ∃ t, ReturnsAt (reflectBoard axes board) (reflectPlayer axes p).man
      (inputs.map (reflectTyped axes)) k t ∧ t.board = reflectBoard axes result := by
  obtain ⟨⟨q, found, legal, rfl⟩, early⟩ := returnsApplied.mp returns
  refine returnsApplied.mpr ⟨⟨reflectTyped axes q, ?_, (legalReflectsAll axes).mpr legal,
    (appliedReflectedAll axes board q).symm⟩, ?_⟩
  · rw [Stream'.Seq.map_get?, found]
    rfl
  · intro l near r here legal
    rw [Stream'.Seq.map_get?] at here
    obtain ⟨q, found, rfl⟩ := Option.map_eq_some_iff.mp here
    exact early l near q found ((legalReflectsAll axes).mp legal)

theorem reflectedReturns (axes : List Axis) {board : Board} {p : Colour} {inputs : Inputs} {k : Nat}
    {t : Turn} (returns : ReturnsAt (reflectBoard axes board) (reflectPlayer axes p).man
      (inputs.map (reflectTyped axes)) k t) : ∃ t, ReturnsAt board p.man inputs k t := by
  obtain ⟨⟨r, here, legal, _⟩, early⟩ := returnsApplied.mp ⟨t, returns, rfl⟩
  rw [Stream'.Seq.map_get?] at here
  obtain ⟨q, found, rfl⟩ := Option.map_eq_some_iff.mp here
  obtain ⟨u, original, _⟩ := returnsApplied.mpr
    ⟨⟨q, found, (legalReflectsAll axes).mp legal, rfl⟩, fun l near q found legal =>
      early l near (reflectTyped axes q) (by rw [Stream'.Seq.map_get?, found]; rfl)
        ((legalReflectsAll axes).mpr legal)⟩
  exact ⟨u, original⟩

theorem returnsOnce {board : Board} {player : Byte} {inputs : Inputs} {k : Nat} {t u : Turn}
    (left : ReturnsAt board player inputs k t) (right : ReturnsAt board player inputs k u) :
    t = u := by
  have same := left.returns.symm.trans right.returns
  cases same
  rfl

theorem makeMoveSymmetric :
    (∀ (axes : List Axis) (board : Board) (p : Colour) (inputs : Inputs) (k : Nat),
      ((∃ t, ReturnsAt (reflectBoard axes board) (reflectPlayer axes p).man
          (inputs.map (reflectTyped axes)) k t) ↔ ∃ t, ReturnsAt board p.man inputs k t) ∧
      ∀ t u, ReturnsAt board p.man inputs k t →
        ReturnsAt (reflectBoard axes board) (reflectPlayer axes p).man
          (inputs.map (reflectTyped axes)) k u → u.board = reflectBoard axes t.board) ∧
    reflectBoard [.rows,.columns] initializeBoard = initializeBoard := by
  refine ⟨fun axes board p inputs k => ⟨⟨?_, ?_⟩, ?_⟩, ?_⟩
  · rintro ⟨t, returns⟩
    exact reflectedReturns axes returns
  · rintro ⟨t, returns⟩
    obtain ⟨u, reflected, _⟩ := returnsReflected axes ⟨t, returns, rfl⟩
    exact ⟨u, reflected⟩
  · intro t u original reflected
    obtain ⟨w, other, result⟩ := returnsReflected axes ⟨t, original, rfl⟩
    rw [returnsOnce reflected other]
    exact result
  · funext i j
    revert i j
    decide

theorem openingReflected : ∃ t u,
    ReturnsAt initializeBoard charX (Stream'.Seq.ofList [⟨3,2,4,3⟩]) 0 t ∧
    ReturnsAt (reflectBoard [.rows] initializeBoard) charO
      ((Stream'.Seq.ofList [⟨3,2,4,3⟩]).map (reflectTyped [.rows])) 0 u ∧
    u.board = reflectBoard [.rows] t.board := by
  obtain ⟨t, original, _⟩ := returnsApplied.mpr
    ⟨⟨_, Stream'.Seq.ofList_get? [⟨3,2,4,3⟩] 0, openingLegal, rfl⟩,
      fun l near => absurd near (Nat.not_lt_zero l)⟩
  have symmetric := makeMoveSymmetric.1 [.rows] initializeBoard .x (Stream'.Seq.ofList [⟨3,2,4,3⟩]) 0
  obtain ⟨u, reflected⟩ := symmetric.1.mpr ⟨t, original⟩
  exact ⟨t, u, original, reflected, symmetric.2 t u original reflected⟩

end Calls

end Warcaby.Symmetry
