import Warcaby.Board

/-! `make_move` of the client's `game.c`, one iteration of its loop at a time. Every
array access, division and read of a local is checked, so undefined behaviour
is visible as a `Fault`. The server's copy differs in one printed text only. -/
namespace Warcaby.MakeMove
open Grid (Inside)

structure Coordinates where
  x1 : Int
  y1 : Int
  x2 : Int
  y2 : Int
  deriving DecidableEq, Repr

inductive Notice where
  | prompt
  | noSuchSquare
  | notYours
  | occupied
  | wrongDirection
  | nothingToCapture
  | incorrect
  | ownPieceInTheWay
  | obstacle
  | handOver
  deriving DecidableEq, Repr

def Notice.text : Notice → String
  | prompt => "Twoja kolej! Podaj ruch w formacie 'x1 y1 x2 y2' (koordynaty od 1 do 8): "
  | noSuchSquare => "Nie ma takiego pola!\n"
  | notYours => "To nie jest twoj pionek!\n"
  | occupied => "Ruch na zajÄ™te pole!\n"
  | wrongDirection => "Nieprawidlowy kierunek ruchu!\n"
  | nothingToCapture => "Nieprawidlowy ruch! Brak pionka przeciwnika do zbicia.\n"
  | incorrect => "Nieprawidlowy ruch!\n"
  | ownPieceInTheWay => "Nieprawidlowy ruch! Wlasny pion na drodze!.\n"
  | obstacle => "Nieprawidlowy ruch! Przeszkoda na drodze lub za duzo pionkow przeciwnika do zbicia.\n"
  | handOver => "Trwa ruch przeciwnika.\n"

/- What one iteration leaves behind. The variables x1 .. y2 survive it: they are
declared before the loop and decremented in place. -/
structure Pass where
  vars : Coordinates
  board : Board
  correctMove : Bool
  output : List Notice
  deriving DecidableEq

def rejected (vars : Coordinates) (board : Board) (notice : Notice) : Pass :=
  ⟨vars,board,false,[.prompt,notice]⟩

def accepted (vars : Coordinates) (board : Board) : Pass :=
  ⟨vars,board,true,[.prompt,.handOver]⟩

-- The man that reached its last row; the source repeats this test in both man branches.
def promote (board : Board) (player : Byte) (v : Coordinates) : Checked Board :=
  if player = charX ∧ v.x2 = boardSize - 1 then store board v.x2 v.y2 charD
  else if player = charO ∧ v.x2 = 0 then store board v.x2 v.y2 charQ
  else .ok board

def manBranch (board : Board) (player : Byte) (v : Coordinates) (dx dy : Int) : Checked Pass :=
  if (player = charX ∧ v.x2 ≤ v.x1) ∨ (player = charO ∧ v.x2 ≥ v.x1) then
    .ok (rejected v board .wrongDirection)
  else if dx = 1 ∧ dy = 1 then do
    let moved ← store board v.x2 v.y2 player
    let cleared ← store moved v.x1 v.y1 blank
    let crowned ← promote cleared player v
    .ok (accepted v crowned)
  else if dx = 2 ∧ dy = 2 then do
    let midX := (v.x1 + v.x2).tdiv 2
    let midY := (v.y1 + v.y2).tdiv 2
    let opponent := if player = charX then charO else charX
    let middle ← load board midX midY
    if middle = opponent then do
      let moved ← store board v.x2 v.y2 player
      let cleared ← store moved v.x1 v.y1 blank
      let captured ← store cleared midX midY blank
      let crowned ← promote captured player v
      .ok (accepted v crowned)
    else .ok (rejected v board .nothingToCapture)
  else .ok (rejected v board .incorrect)

def divide (a d : Int) : Checked Int := if d = 0 then .error .division else .ok (a.tdiv d)

structure Scan where
  opponentPieces : Nat
  ownPieces : Nat
  mid : Option (Int × Int)
  deriving DecidableEq, Repr

def scanCell (board : Board) (piece : Byte) (v : Coordinates) (directionX directionY : Int)
    (s : Scan) (i : Nat) : Checked Scan := do
  let checkX := v.x1 + i * directionX
  let checkY := v.y1 + i * directionY
  let cell ← load board checkX checkY
  if cell ≠ blank then
    if cell = (if piece = charD then charO else charX) then
      .ok {s with opponentPieces := s.opponentPieces + 1, mid := some (checkX,checkY)}
    else .ok {s with ownPieces := s.ownPieces + 1}
  else .ok s

def removeMid (board : Board) (s : Scan) : Checked Board :=
  if s.opponentPieces = 1 then
    match s.mid with
    | some (midX,midY) => store board midX midY blank
    | none => .error .unassigned
  else .ok board

-- Two reject paths do not `continue`: they fall through to the hand-over text.
def kingBranch (board : Board) (piece : Byte) (v : Coordinates) (dx dy : Int) : Checked Pass :=
  if dx = dy then do
    let directionX ← divide (v.x2 - v.x1) dx
    let directionY ← divide (v.y2 - v.y1) dy
    let s ← (List.range' 1 (dx - 1).toNat).foldlM (scanCell board piece v directionX directionY)
      ⟨0,0,none⟩
    if s.ownPieces > 0 then
      .ok ⟨v,board,false,[.prompt,.ownPieceInTheWay,.handOver]⟩
    else if s.opponentPieces ≤ 1 then do
      let moved ← store board v.x2 v.y2 piece
      let cleared ← store moved v.x1 v.y1 blank
      let captured ← removeMid cleared s
      .ok (accepted v captured)
    else .ok (rejected v board .obstacle)
  else .ok ⟨v,board,false,[.prompt,.handOver]⟩

def movePiece (board : Board) (player : Byte) (v : Coordinates) : Checked Pass := do
  let piece ← load board v.x1 v.y1
  if piece ≠ player ∧ piece ≠ charD ∧ piece ≠ charQ then .ok (rejected v board .notYours)
  else do
    let target ← load board v.x2 v.y2
    if target ≠ blank then .ok (rejected v board .occupied)
    else
      let dx : Int := (v.x2 - v.x1).natAbs
      let dy : Int := (v.y2 - v.y1).natAbs
      if piece = charX ∨ piece = charO then manBranch board player v dx dy
      else if piece = charD ∨ piece = charQ then kingBranch board piece v dx dy
      else .ok (rejected v board .incorrect)

def OutOfRange (v : Coordinates) : Prop :=
  (v.x1 > boardSize ∨ v.x2 > boardSize ∨ v.y1 > boardSize ∨ v.y2 > boardSize) ∨
  (v.x1 < 1 ∨ v.x2 < 1 ∨ v.y1 < 1 ∨ v.y2 < 1)
instance (v) : Decidable (OutOfRange v) := by unfold OutOfRange; infer_instance

-- The body of the loop after `scanf`, on the values the four variables then hold.
def pass (board : Board) (player : Byte) (v : Coordinates) : Checked Pass :=
  if OutOfRange v then .ok (rejected v board .noSuchSquare)
  else movePiece board player ⟨v.x1 - 1,v.y1 - 1,v.x2 - 1,v.y2 - 1⟩

structure Turn where
  board : Board
  typed : Coordinates
  rest : List Coordinates
  output : List Notice
  deriving DecidableEq

/- A call of `make_move` on typed integers: each `scanf` takes the next four and
assigns all four variables. `none`: the call still waits for input. -/
def makeMove (board : Board) (player : Byte) : List Coordinates → Checked (Option Turn)
  | [] => .ok none
  | typed :: rest => do
    let p ← pass board player typed
    if p.correctMove then .ok (some ⟨p.board,typed,rest,p.output⟩)
    else
      let later ← makeMove p.board player rest
      .ok (later.map (fun t => {t with output := p.output ++ t.output}))

end Warcaby.MakeMove
