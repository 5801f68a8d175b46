import Warcaby.Grid

/-! The board of `game.c` and the functions on it other than `make_move`. A cell is
one C `char`, kept as a byte: peers may store any value. `malloc` succeeds here;
an access outside an array, undefined in C, is a `Fault`. -/
namespace Warcaby
open Grid (Table Inside get write rowMajor flatten fill)

abbrev Byte := UInt8

abbrev boardSize : Int := 8
-- `BUFFER_SIZE` of `game.c`; `server.c` and `client.c` have their own.
abbrev gameBufferSize : Nat := 1048

abbrev nul : Byte := 0
abbrev blank : Byte := 32
abbrev charX : Byte := 88
abbrev charO : Byte := 79
abbrev charD : Byte := 68
abbrev charQ : Byte := 81

inductive Fault where
  | index (x y : Int)
  | pastEnd (k : Nat)
  | division
  | unassigned
  deriving DecidableEq, Repr

abbrev Checked := Except Fault

@[simp] theorem okBind {α β : Type} (a : α) (next : α → Checked β) :
    (Except.ok a >>= next) = next a := rfl

abbrev Board := Table 8 8 Byte

def load (board : Board) (x y : Int) : Checked Byte :=
  if Inside 8 8 x y then .ok (get board x y) else .error (.index x y)

def store (board : Board) (x y : Int) (value : Byte) : Checked Board :=
  if Inside 8 8 x y then .ok (write board x y value) else .error (.index x y)

@[simp] theorem loadInside {x y : Int} (inside : Inside 8 8 x y) (board : Board) :
    load board x y = .ok (get board x y) := if_pos inside

@[simp] theorem storeInside {x y : Int} (inside : Inside 8 8 x y) (board : Board) (value : Byte) :
    store board x y value = .ok (write board x y value) := if_pos inside

theorem loadOk {board : Board} {x y : Int} {value : Byte} (loaded : load board x y = .ok value) :
    Inside 8 8 x y ∧ value = get board x y := by
  unfold load at loaded
  split at loaded
  · cases loaded
    exact ⟨‹_›, rfl⟩
  · cases loaded

theorem storeOk {board result : Board} {x y : Int} {value : Byte}
    (stored : store board x y value = .ok result) :
    Inside 8 8 x y ∧ result = write board x y value := by
  unfold store at stored
  split at stored
  · cases stored
    exact ⟨‹_›, rfl⟩
  · cases stored

def initializeBoard : Board := fun i j =>
  if ((i : Nat) + j) % 2 = 0 then blank
  else if (i : Int) < 3 then charX
  else if (i : Int) > boardSize - 4 then charO
  else blank

def checkPiecesLeft (board : Board) (player : Byte) : Nat :=
  (rowMajor 8 8).foldl (fun count s => if board s.1 s.2 == player then count + 1 else count) 0

def getBufferFromBoard (board : Board) : List Byte :=
  flatten board ++ List.replicate (gameBufferSize - 64) nul

def readBuffer (buffer : List Byte) (k : Nat) : Checked Byte :=
  match buffer[k]? with
  | some value => .ok value
  | none => .error (.pastEnd k)

def setBoardToBuffer (board : Board) (buffer : List Byte) : Checked Board :=
  fill (readBuffer buffer) board

def boardOfBytes (bytes : List Byte) : Board := fun i j => bytes.getD (Grid.offset (i, j)) nul

theorem readBufferInside {buffer : List Byte} {k : Nat} (inside : k < buffer.length) :
    readBuffer buffer k = .ok (buffer.getD k nul) := by
  simp [readBuffer, List.getElem?_eq_getElem inside]

theorem readBufferPastEnd {buffer : List Byte} {k : Nat} (outside : buffer.length ≤ k) :
    readBuffer buffer k = .error (.pastEnd k) := by
  simp [readBuffer, List.getElem?_eq_none outside]

theorem setBoardEnough {buffer : List Byte} (enough : 64 ≤ buffer.length) (board : Board) :
    setBoardToBuffer board buffer = .ok (boardOfBytes buffer) :=
  Grid.fillOk (fun _ small => readBufferInside (by omega)) board

theorem setBoardShort {buffer : List Byte} (short : buffer.length < 64) (board : Board) :
    setBoardToBuffer board buffer = .error (.pastEnd buffer.length) :=
  Grid.fillError short (fun _ small => readBufferInside small) (readBufferPastEnd (Nat.le_refl _)) board

theorem setBoardDefined {board result : Board} {buffer : List Byte} :
    setBoardToBuffer board buffer = .ok result ↔
      64 ≤ buffer.length ∧ result = boardOfBytes buffer := by
  by_cases enough : 64 ≤ buffer.length
  · rw [setBoardEnough enough]
    simp [enough, eq_comm]
  · rw [setBoardShort (by omega)]
    simp [enough]

theorem boardOfFlatten (board : Board) (rest : List Byte) :
    boardOfBytes (flatten board ++ rest) = board := by
  funext i j
  have inside : Grid.offset (i, j) < (flatten board).length := by
    simpa using Grid.offsetBound (i, j)
  have found := Grid.flattenAt board (i, j)
  simp [boardOfBytes, List.getD, List.getElem?_append_left inside, found]

theorem checkPiecesLeftCount (board : Board) (player : Byte) :
    checkPiecesLeft board player = Grid.count (· == player) board :=
  Grid.countLoop (· == player) board

-- `player` in the source is the letter of the man.
inductive Colour where
  | x
  | o
  deriving DecidableEq, Repr

namespace Colour

def other : Colour → Colour
  | x => o
  | o => x

def man : Colour → Byte
  | x => charX
  | o => charO

def king : Colour → Byte
  | x => charD
  | o => charQ

def forward : Colour → Int
  | x => 1
  | o => -1

def lastRow : Colour → Int
  | x => boardSize - 1
  | o => 0

def owns (c : Colour) (cell : Byte) : Bool := cell == c.man || cell == c.king

@[simp] theorem otherOther (c : Colour) : c.other.other = c := by cases c <;> rfl

theorem otherApart (c : Colour) : c.other ≠ c := by cases c <;> decide

theorem otherOfApart {c d : Colour} (apart : d ≠ c) : d = c.other := by
  cases c <;> cases d <;> first | rfl | exact absurd rfl apart

theorem manLetter (c : Colour) : c.man = charX ∨ c.man = charO := by cases c <;> decide

theorem kingLetter (c : Colour) : c.king = charD ∨ c.king = charQ := by cases c <;> decide

theorem manNotBlank (c : Colour) : c.man ≠ blank := by cases c <;> decide

theorem kingNotBlank (c : Colour) : c.king ≠ blank := by cases c <;> decide

theorem kingNotMan (c d : Colour) : c.king ≠ d.man := by cases c <;> cases d <;> decide

theorem manUnique {c d : Colour} (same : c.man = d.man) : c = d := by
  cases c <;> cases d <;> first | rfl | exact absurd same (by decide)

theorem kingUnique {c d : Colour} (same : c.king = d.king) : c = d := by
  cases c <;> cases d <;> first | rfl | exact absurd same (by decide)

theorem kingNoMan (c : Colour) : ¬ (c.king = charX ∨ c.king = charO) :=
  not_or.mpr ⟨c.kingNotMan x, c.kingNotMan o⟩

theorem manNoKing (c : Colour) : ¬ (c.man = charD ∨ c.man = charQ) :=
  not_or.mpr ⟨(kingNotMan x c).symm, (kingNotMan o c).symm⟩

theorem ownsPiece {c : Colour} {cell : Byte} :
    c.owns cell = true ↔ cell = c.man ∨ cell = c.king := by
  simp [owns]

theorem ownsMan (c : Colour) : c.owns c.man = true := ownsPiece.mpr (.inl rfl)

theorem ownsKing (c : Colour) : c.owns c.king = true := ownsPiece.mpr (.inr rfl)

theorem ownsBlank (c : Colour) : c.owns blank = false := by cases c <;> rfl

theorem ownsOther (c : Colour) : c.owns c.other.man = false := by cases c <;> rfl

end Colour

/- Cells that the game itself writes. A well-formed board has men and kings on
dark squares only, and no man that reached its last row without becoming a king. -/
def GameCell (cell : Byte) : Prop :=
  cell = blank ∨ cell = charX ∨ cell = charO ∨ cell = charD ∨ cell = charQ
instance (cell) : Decidable (GameCell cell) := by unfold GameCell; infer_instance

def GameCells (board : Board) : Prop := ∀ i j, GameCell (board i j)
instance (board) : Decidable (GameCells board) := by unfold GameCells; infer_instance

structure WellFormed (board : Board) : Prop where
  cells : GameCells board
  dark : ∀ i j : Fin 8, ((i : Nat) + j) % 2 = 0 → board i j = blank
  crowned : ∀ (c : Colour) (i j : Fin 8), (i : Int) = c.lastRow → board i j ≠ c.man

instance (board) : Decidable (WellFormed board) :=
  decidable_of_iff (GameCells board ∧
      (∀ i j : Fin 8, ((i : Nat) + j) % 2 = 0 → board i j = blank) ∧
      ∀ c ∈ [Colour.x,Colour.o], ∀ i j : Fin 8, (i : Int) = c.lastRow → board i j ≠ c.man)
    ⟨fun ⟨cells, dark, crowned⟩ => ⟨cells, dark, fun c => crowned c (by cases c <;> simp)⟩,
      fun wf => ⟨wf.cells, wf.dark, fun c _ => wf.crowned c⟩⟩

theorem gameCellNotNul {cell : Byte} (game : GameCell cell) : cell ≠ nul := by
  rcases game with rfl | rfl | rfl | rfl | rfl <;> decide

theorem gameCellPiece {cell : Byte} (game : GameCell cell) :
    cell = blank ∨ ∃ c : Colour, cell = c.man ∨ cell = c.king := by
  rcases game with rfl | rfl | rfl | rfl | rfl
  · exact .inl rfl
  · exact .inr ⟨.x, .inl rfl⟩
  · exact .inr ⟨.o, .inl rfl⟩
  · exact .inr ⟨.x, .inr rfl⟩
  · exact .inr ⟨.o, .inr rfl⟩

theorem initialWellFormed : WellFormed initializeBoard where
  cells := by decide
  dark := by decide
  crowned := by intro c; cases c <;> decide

end Warcaby
