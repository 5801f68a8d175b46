import Warcaby.Accounting

/-! Men only go forwards. The rows that all men still have to their last rows add up to
144 at the start; every move of a man takes at least one off, and no move of a king
adds any, so a game has at most 144 moves of men. -/
namespace Warcaby.Progress
open MakeMove Rule Turn Play
open Transition (Run)
open Accounting (moved movedCell)

-- 7 - row for an 'X', row for an 'O'.
def rowsLeft (x _ : Int) (cell : Byte) : Nat :=
  if cell = charX then (boardSize - 1 - x).toNat
  else if cell = charO then x.toNat
  else 0

def distanceLeft (board : Board) : Nat := Grid.total rowsLeft board

def MovesMan (before : Board) (t : MakeMove.Turn) : Prop :=
  moved before t = charX ∨ moved before t = charO
instance (before t) : Decidable (MovesMan before t) := by unfold MovesMan; infer_instance

def MovesKing (before : Board) (t : MakeMove.Turn) : Prop :=
  moved before t = charD ∨ moved before t = charQ
instance (before t) : Decidable (MovesKing before t) := by unfold MovesKing; infer_instance

section Ply
variable {board : Board} {player : Byte} {m : Ply}

theorem rowsLeftKing (c : Colour) (x y : Int) : rowsLeft x y c.king = 0 := by
  cases c <;> rfl

theorem rowsLeftMan (c : Colour) (x y : Int) :
    rowsLeft x y c.man = ((c.lastRow - x) * c.forward).toNat := by
  cases c with
  | x => simp [rowsLeft, Colour.man, Colour.lastRow, Colour.forward]
  | o => simp [rowsLeft, Colour.man, Colour.lastRow, Colour.forward, charX, charO]

theorem manAdvances {c : Colour} (legal : Legal board player m) (man : m.cell board 0 = c.man)
    (forward : m.dirX = c.forward) :
    rowsLeft (m.row m.distance) (m.column m.distance)
        (crowned (m.cell board 0) (m.row m.distance)) + 1 ≤
      rowsLeft m.x m.y (m.cell board 0) := by
  have moves := legal.diagonal.moves
  have target := legal.diagonal.target.1
  have row : m.row m.distance = m.x + m.distance * c.forward := by rw [Ply.row, forward]
  rw [man, crownedMan, rowsLeftMan]
  split
  · rename_i last
    rw [rowsLeftKing, ← last, row]
    cases c <;> simp only [Colour.forward] <;> omega
  · rw [rowsLeftMan]
    rw [row] at target ⊢
    cases c <;> simp only [Colour.forward, Colour.lastRow, boardSize] at target ⊢ <;> omega

theorem resultAdvances (legal : Legal board player m) :
    distanceLeft (m.result board) +
        (if m.cell board 0 = charX ∨ m.cell board 0 = charO then 1 else 0) ≤
      distanceLeft board := by
  have totals := resultTotal legal.diagonal legal.empty legal.passage
    (fun x y => (rfl : rowsLeft x y blank = 0))
  unfold distanceLeft
  rcases legal.mover with ⟨c, _, man, forward, _⟩ | king
  · have advance := manAdvances legal man forward
    split <;> omega
  · have same := crownedKing king (m.row m.distance)
    have still (x y : Int) : rowsLeft x y (m.cell board 0) = 0 := by
      rcases king with d | q
      · rw [d]; exact rowsLeftKing .x x y
      · rw [q]; exact rowsLeftKing .o x y
    have noMan : ¬ (m.cell board 0 = charX ∨ m.cell board 0 = charO) := by
      rcases king with d | q
      · rw [d]; decide
      · rw [q]; decide
    rw [same, still, still] at totals
    rw [if_neg noMan]
    omega

end Ply

theorem callAdvances {before : Board} {player : Byte} {inputs : List Coordinates}
    {t : MakeMove.Turn} (returns : makeMove before player inputs = .ok (some t)) :
    distanceLeft t.board + (if MovesMan before t then 1 else 0) ≤ distanceLeft before := by
  obtain ⟨m, returned⟩ := makeMoveReturned returns
  have man : MovesMan before t ↔ m.cell before 0 = charX ∨ m.cell before 0 = charO := by
    rw [MovesMan, movedCell returned]
  rw [if_congr man rfl rfl, returned.result]
  exact resultAdvances returned.legal

theorem manOrKing {before : Board} {player : Byte} {inputs : List Coordinates} {t : MakeMove.Turn}
    (returns : makeMove before player inputs = .ok (some t)) :
    MovesMan before t ∨ MovesKing before t := by
  obtain ⟨m, returned⟩ := makeMoveReturned returns
  unfold MovesMan MovesKing
  rw [movedCell returned]
  rcases returned.legal.mover with ⟨c, _, man, _⟩ | king
  · rw [man]
    exact .inl c.manLetter
  · exact .inr king

theorem initialDistance : distanceLeft initializeBoard = 144 := by decide

theorem menMoves {calls : List Call} {board : Board} (run : Run play calls board) :
    distanceLeft board + calls.countP (fun call => MovesMan call.before call.turn) ≤ 144 := by
  refine Transition.runPotential (fun s first => ?_) (fun s call t next => ?_) run
  · rw [show s = initializeBoard from first, initialDistance]
  · obtain ⟨rfl, returns, rfl⟩ := next
    simpa using callAdvances returns

theorem progress :
    distanceLeft initializeBoard = 144 ∧
    (∀ (before : Board) (p : Colour) (inputs : List Coordinates) (t : MakeMove.Turn),
      makeMove before p.man inputs = .ok (some t) →
      distanceLeft t.board + (if MovesMan before t then 1 else 0) ≤ distanceLeft before) ∧
    ∀ (calls : List Call) (board : Board), Run play calls board →
      calls.countP (fun call => MovesMan call.before call.turn) ≤ 144 ∧
      ((∀ call ∈ calls, ¬ MovesKing call.before call.turn) → calls.length ≤ 144) := by
  refine ⟨initialDistance, fun before p inputs t returns => callAdvances returns,
    fun calls board run => ?_⟩
  have bound := menMoves run
  refine ⟨by omega, fun noKing => ?_⟩
  have all : calls.countP (fun call => MovesMan call.before call.turn) = calls.length := by
    rw [List.countP_eq_length]
    intro call member
    have man := (manOrKing (runReturns run call member)).resolve_right (noKing call member)
    exact decide_eq_true man
  omega

theorem progressCrowned : ∃ calls board, Run play calls board ∧ calls.length = 10 ∧
    calls.countP (fun call => MovesMan call.before call.turn) = 9 ∧
    ∃ call ∈ calls, MovesKing call.before call.turn ∧
      distanceLeft call.turn.board ≤ distanceLeft call.before := by
  let king (call : Call) : Bool := MovesKing call.before call.turn
  obtain ⟨calls, board, run, shown⟩ := playedCalls
    (fun calls _ => (calls.length,calls.countP (fun call => MovesMan call.before call.turn),
      calls[9]?.map king)) crowningScript (10,9,some true) (by decide +kernel)
  simp only [Prod.mk.injEq, Option.map_eq_some_iff] at shown
  obtain ⟨ten, nine, call, there, king⟩ := shown
  have inside := List.mem_of_getElem? there
  have law := progress.2.1 call.before call.colour call.inputs call.turn (runReturns run call inside)
  have bound := (progress.2.2 calls board run).1
  exact ⟨calls, board, run, ten, nine, call, inside, of_decide_eq_true king, Nat.le_trans (Nat.le_add_right _ _) law⟩

end Warcaby.Progress
