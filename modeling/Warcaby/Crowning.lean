import Warcaby.Counting
import Warcaby.Replay

/-! Kings over a whole game. They come from crowning only and are never captured, so a
side that has crowned a man keeps a piece for ever, whatever the other one does. -/
namespace Warcaby.Crowning
open MakeMove Rule Turn Play Session
open Accounting (moved movedCell captured pieces Jumped)
open Counting (letter Crowns)
open Transition (Run Steps)

def kings (c : Colour) (board : Board) : Nat := Grid.count (· == c.king) board

def CrownsIn (c : Colour) (before : Board) (t : MakeMove.Turn) : Prop :=
  moved before t = c.man ∧ t.typed.x2 - 1 = c.lastRow
instance (c before t) : Decidable (CrownsIn c before t) := by unfold CrownsIn; infer_instance

def crownings (c : Colour) (calls : List Call) : Nat :=
  calls.countP (fun call => CrownsIn c call.before call.turn)

section Ply
variable {board : Board} {player : Byte} {m : Ply} {c : Colour}

theorem kingsTotal (c : Colour) (board : Board) : kings c board = Grid.total (letter c.king) board :=
  rfl

theorem kingMan (c d : Colour) (x y : Int) : letter c.king x y d.man = 0 := by
  cases c <;> cases d <;> rfl

theorem kingKing (c d : Colour) (x y : Int) : letter c.king x y d.king = if c = d then 1 else 0 := by
  cases c <;> cases d <;> rfl

theorem jumpedNoKing (legal : Legal board player m) (c : Colour) :
    jumpedWeight (letter c.king) m board = 0 := by
  unfold jumpedWeight
  cases jumped : m.jumped with
  | none => rfl
  | some k =>
    obtain ⟨d, own⟩ := Accounting.moverOwner legal
    have prey := (legal.passage.jump k jumped).2.2
    rw [Accounting.foeOwner own] at prey
    dsimp only
    rw [prey, kingMan]

theorem kingMoved (legal : Legal board player m) (c : Colour) :
    letter c.king (m.row m.distance) (m.column m.distance)
        (crowned (m.cell board 0) (m.row m.distance)) =
      letter c.king m.x m.y (m.cell board 0) + if Crowns board c m then 1 else 0 := by
  obtain ⟨d, own⟩ := Accounting.moverOwner legal
  rcases Colour.ownsPiece.mp own with man | king
  · have crowns : Crowns board c m ↔ c = d ∧ m.row m.distance = d.lastRow := by
      constructor
      · rintro ⟨here, last⟩
        obtain rfl := Colour.manUnique (here.symm.trans man)
        exact ⟨rfl, last⟩
      · rintro ⟨rfl, last⟩
        exact ⟨man, last⟩
    rw [man, crownedMan, kingMan, if_congr crowns rfl rfl]
    by_cases last : m.row m.distance = d.lastRow
    · rw [if_pos last, kingKing]
      simp [last]
    · rw [if_neg last, kingMan]
      simp [last]
  · have noMan : ¬ Crowns board c m := fun crowns => d.kingNotMan c (king.symm.trans crowns.1)
    have still : crowned d.king (m.row m.distance) = d.king := crownedKing d.kingLetter _
    rw [king, still, if_neg noMan, kingKing, kingKing, Nat.add_zero]

theorem resultKings (legal : Legal board player m) (c : Colour) :
    kings c (m.result board) = kings c board + if Crowns board c m then 1 else 0 := by
  have blanks (x y : Int) : letter c.king x y blank = 0 := by cases c <;> rfl
  have totals := resultTotal legal.diagonal legal.empty legal.passage blanks
  rw [jumpedNoKing legal, kingMoved legal] at totals
  rw [kingsTotal, kingsTotal]
  omega

theorem menAndKings (c : Colour) (board : Board) :
    checkPiecesLeft board c.man + kings c board = pieces c board := by
  rw [Counting.countLetters, kingsTotal, Accounting.piecesTotal, Grid.total, Grid.total, Grid.total,
    ← Finset.sum_add_distrib]
  refine Finset.sum_congr rfl (fun s _ => ?_)
  have apart := c.kingNotMan c
  unfold letter Accounting.ownWeight Colour.owns
  by_cases man : board s.1 s.2 = c.man
  · simp [man, apart.symm]
  · by_cases king : board s.1 s.2 = c.king
    · simp [king, apart]
    · simp [man, king]

end Ply

section Calls
variable {calls : List Call} {board before : Board} {player : Byte} {inputs : List Coordinates}
  {t : MakeMove.Turn}

theorem crownsReturned {m : Ply} (returned : Returned before player inputs t m) (c : Colour) :
    CrownsIn c before t ↔ Crowns before c m := by
  unfold CrownsIn Crowns
  rw [movedCell returned, returned.typed]
  simp [Ply.typed]

theorem callKings (returns : makeMove before player inputs = .ok (some t)) (c : Colour) :
    kings c t.board = kings c before + if CrownsIn c before t then 1 else 0 := by
  obtain ⟨m, returned⟩ := makeMoveReturned returns
  rw [if_congr (crownsReturned returned c) rfl rfl, returned.result]
  exact resultKings returned.legal c

theorem gameKings (run : Run play calls board) (c : Colour) : kings c board = crownings c calls := by
  induction run with
  | start first =>
    rw [first]
    cases c <;> decide
  | @step calls board call after before next ih =>
    obtain ⟨rfl, returns, rfl⟩ := next
    rw [callKings returns c, ih]
    simp [crownings, List.countP_append, List.countP_singleton]

end Calls

section Network
variable {randNum : Nat} {labels more : List (Action × List Move)} {s t : State} {c : Colour}

theorem kingsKept (run : Run (distributed randNum) labels s)
    (steps : Steps (distributed randNum) s more t) (c : Colour) :
    kings c (latest (moves labels)) ≤ kings c (latest (moves (labels ++ more))) := by
  rw [gameKings (SharedBoard.networkGame run),
    gameKings (SharedBoard.networkGame (Transition.runSteps run steps)), Session.movesAppend,
    List.map_append, crownings, crownings, List.countP_append]
  exact Nat.le_add_right _ _

theorem kingsAccount (run : Run (distributed randNum) labels s) (c : Colour) :
    kings c (latest (moves labels)) = crownings c ((moves labels).map (call randNum)) ∧
    checkPiecesLeft (latest (moves labels)) c.man + crownings c ((moves labels).map (call randNum)) +
      captured c ((moves labels).map (call randNum)) = 12 ∧
    (0 < crownings c ((moves labels).map (call randNum)) →
      ∀ more t, Steps (distributed randNum) s more t →
        0 < pieces c (latest (moves (labels ++ more)))) := by
  have game := SharedBoard.networkGame run
  have count := gameKings game c
  have twelve := SharedBoard.networkPieces run c
  refine ⟨count, ?_, fun some' more t steps => ?_⟩
  · rw [← menAndKings] at twelve
    omega
  · have kept := kingsKept run steps c
    have all := menAndKings c (latest (moves (labels ++ more)))
    omega

def crowningScripts : Server.Client → List Coordinates
  | .one => [⟨3,2,4,3⟩,⟨2,1,3,2⟩,⟨3,4,4,5⟩,⟨1,2,2,1⟩]
  | .two => [⟨6,1,5,2⟩,⟨6,3,5,4⟩,⟨5,2,3,4⟩,⟨3,4,1,2⟩]

theorem crowningGame : (Replay.replay 0 crowningScripts).length = 8 ∧
    kings .o (latest (Replay.replay 0 crowningScripts)) = 1 := by decide +kernel

theorem crowningRun : ∃ labels s, Run (distributed 0) labels s ∧
    moves labels = Replay.replay 0 crowningScripts := by
  obtain ⟨⟨game, run⟩, all, _⟩ := Replay.replayRun 0 crowningScripts
  obtain ⟨labels, s, run', made, _⟩ := Replay.realised run all
  exact ⟨labels, s, run', made⟩

theorem kingsAccountCrowned : ∃ labels s, Run (distributed 0) labels s ∧ (moves labels).length = 8 ∧
    ∀ more t, Steps (distributed 0) s more t → 0 < pieces .o (latest (moves (labels ++ more))) := by
  obtain ⟨labels, s, run, made⟩ := crowningRun
  obtain ⟨eight, one⟩ := crowningGame
  rw [← made] at eight one
  obtain ⟨count, _, kept⟩ := kingsAccount run .o
  exact ⟨labels, s, run, eight, kept (by omega)⟩

end Network
end Warcaby.Crowning
