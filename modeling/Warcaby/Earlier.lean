import Warcaby.Play
import Warcaby.Rulebook

/-! `make_move` of `olds/TLV_format/game.c`, from before there were kings: a man that
reaches its last row stays a man, and nothing but the player's own men moves. The
square test is the one of the current version, word for word. -/
namespace Warcaby.Earlier
open MakeMove (Coordinates OutOfRange)
open Rulebook (Inputs)
open Transition (Machine)

inductive Notice where
  | prompt
  | noSuchSquare
  | notYours
  | occupied
  | wrongDirection
  | nothingToCapture
  | incorrect
  | handOver
  deriving DecidableEq, Repr

structure Pass where
  vars : Coordinates
  board : Board
  correctMove : Bool
  output : List Notice
  deriving DecidableEq

def rejected (vars : Coordinates) (board : Board) (notice : Notice) : Pass :=
  ⟨vars,board,false,[.prompt,notice]⟩

def accepted (vars : Coordinates) (board : Board) : Pass :=
  ⟨vars,board,true,[.prompt,.handOver]⟩

def jumpOrStep (board : Board) (player : Byte) (v : Coordinates) (dx dy : Int) : Checked Pass :=
  if dx = 1 ∧ dy = 1 then do
    let moved ← store board v.x2 v.y2 player
    let cleared ← store moved v.x1 v.y1 blank
    .ok (accepted v cleared)
  else if dx = 2 ∧ dy = 2 then do
    let midX := (v.x1 + v.x2).tdiv 2
    let midY := (v.y1 + v.y2).tdiv 2
    let opponent := if player = charX then charO else charX
    let middle ← load board midX midY
    if middle = opponent then do
      let moved ← store board v.x2 v.y2 player
      let cleared ← store moved v.x1 v.y1 blank
      let captured ← store cleared midX midY blank
      .ok (accepted v captured)
    else .ok (rejected v board .nothingToCapture)
  else .ok (rejected v board .incorrect)

def movePiece (board : Board) (player : Byte) (v : Coordinates) : Checked Pass := do
  let piece ← load board v.x1 v.y1
  if piece ≠ player then .ok (rejected v board .notYours)
  else do
    let target ← load board v.x2 v.y2
    if target ≠ blank then .ok (rejected v board .occupied)
    else if (player = charX ∧ v.x2 ≤ v.x1) ∨ (player = charO ∧ v.x2 ≥ v.x1) then
      .ok (rejected v board .wrongDirection)
    else
      let dx : Int := (v.x2 - v.x1).natAbs
      let dy : Int := (v.y2 - v.y1).natAbs
      jumpOrStep board player v dx dy

def pass (board : Board) (player : Byte) (v : Coordinates) : Checked Pass :=
  if OutOfRange v then .ok (rejected v board .noSuchSquare)
  else movePiece board player ⟨v.x1 - 1,v.y1 - 1,v.x2 - 1,v.y2 - 1⟩

structure Turn where
  board : Board
  typed : Coordinates
  rest : List Coordinates
  output : List Notice
  deriving DecidableEq

def makeMove (board : Board) (player : Byte) : List Coordinates → Checked (Option Turn)
  | [] => .ok none
  | typed :: rest => do
    let p ← pass board player typed
    if p.correctMove then .ok (some ⟨p.board,typed,rest,p.output⟩)
    else
      let later ← makeMove p.board player rest
      .ok (later.map (fun t => {t with output := p.output ++ t.output}))

structure ReturnsAt (board : Board) (player : Byte) (inputs : Inputs) (k : Nat)
    (u : Turn) : Prop where
  waits : makeMove board player (inputs.take k) = .ok none
  returns : makeMove board player (inputs.take (k + 1)) = .ok (some u)

structure Call where
  colour : Colour
  before : Board
  inputs : List Coordinates
  turn : Turn

def Call.Returns (c : Call) : Prop :=
  makeMove c.before c.colour.man c.inputs = .ok (some c.turn)

def play : Machine Board Call where
  start board := board = initializeBoard
  step board call after := call.before = board ∧ call.Returns ∧ after = call.turn.board

end Warcaby.Earlier
