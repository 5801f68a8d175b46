import Warcaby.Transition
import Warcaby.Turn

/-! Games: runs of calls of `make_move` from the initial board, by either player in
any order. The invariant is `WellFormed`; one ply preserves it on any board. -/
namespace Warcaby.Play
open MakeMove Rule Turn
open Transition (Machine Run Reachable)

structure Call where
  colour : Colour
  before : Board
  inputs : List Coordinates
  turn : MakeMove.Turn

def Call.Returns (c : Call) : Prop :=
  makeMove c.before c.colour.man c.inputs = .ok (some c.turn)

def play : Machine Board Call where
  start board := board = initializeBoard
  step board call after := call.before = board ∧ call.Returns ∧ after = call.turn.board

theorem moverCell {board : Board} {player : Byte} {m : Ply} (legal : Legal board player m) :
    ∃ i j : Fin 8, m.x = i ∧ m.y = j ∧ m.cell board 0 = board i j := by
  obtain ⟨i, j, row, column⟩ := Grid.insideIndices legal.diagonal.source
  refine ⟨i, j, row, column, ?_⟩
  rw [Ply.cell, Ply.rowZero, Ply.columnZero, row, column, Grid.getCell]

theorem moverNotBlank {board : Board} {player : Byte} {m : Ply} (legal : Legal board player m) :
    m.cell board 0 ≠ blank := by
  rcases legal.mover with ⟨c, _, man, _⟩ | king | king
  · rw [man]; exact c.manNotBlank
  · rw [king]; exact Colour.kingNotBlank .x
  · rw [king]; exact Colour.kingNotBlank .o

theorem crownedGameCell {piece : Byte} (game : GameCell piece) (row : Int) :
    GameCell (crowned piece row) := by
  unfold crowned
  split
  · decide
  · split
    · decide
    · exact game

theorem sameShade {m : Ply} (diagonal : Diagonal m) (k : Nat) :
    (m.row k + m.column k) % 2 = (m.x + m.y) % 2 := by
  unfold Ply.row Ply.column
  rcases diagonal.dirX with h | h <;> rcases diagonal.dirY with h' | h' <;> rw [h, h'] <;> omega

theorem resultWellFormed {board : Board} {player : Byte} {m : Ply} (legal : Legal board player m)
    (wf : WellFormed board) : WellFormed (m.result board) := by
  obtain ⟨r, s, row, column, here⟩ := moverCell legal
  refine ⟨fun i j => ?_, fun i j even => ?_, fun c i j last => ?_⟩
  · rcases resultCases m board i j with empty | ⟨_, _, landed⟩ | kept
    · rw [empty]; decide
    · rw [landed, here]; exact crownedGameCell (wf.cells r s) _
    · rw [kept]; exact wf.cells i j
  · rcases resultCases m board i j with empty | ⟨rows, columns, _⟩ | kept
    · exact empty
    · have shade := sameShade legal.diagonal m.distance
      have light : ((r : Nat) + s) % 2 = 0 := by omega
      exact absurd (here.trans (wf.dark r s light)) (moverNotBlank legal)
    · rw [kept]; exact wf.dark i j even
  · rcases resultCases m board i j with empty | ⟨rows, _, landed⟩ | kept
    · rw [empty]; exact c.manNotBlank.symm
    · rw [landed, ← rows, last]; exact crownedNotMan c _
    · rw [kept]; exact wf.crowned c i j last

theorem callWellFormed {board after : Board} {call : Call} (wf : WellFormed board)
    (next : play.step board call after) : WellFormed after := by
  obtain ⟨rfl, returns, rfl⟩ := next
  obtain ⟨m, returned⟩ := makeMoveReturned returns
  rw [returned.result]
  exact resultWellFormed returned.legal wf

theorem reachableWellFormed {board : Board} (reachable : Reachable play board) : WellFormed board := by
  obtain ⟨calls, run⟩ := reachable
  exact Transition.runInvariant (fun s first => first ▸ initialWellFormed)
    (fun _ _ _ wf next => callWellFormed wf next) run

theorem runReturns {calls : List Call} {board : Board} (run : Run play calls board) :
    ∀ call ∈ calls, call.Returns := by
  intro call member
  obtain ⟨earlier, later, split⟩ := List.append_of_mem member
  obtain ⟨_, _, _, _, returns, _⟩ := Transition.runSplit run split
  exact returns

theorem gameBoards {board : Board} (reachable : Reachable play board) (i j : Fin 8) :
    (board i j = blank ∨ board i j = charX ∨ board i j = charO ∨ board i j = charD ∨
      board i j = charQ) ∧
    (((i : Nat) + j) % 2 = 0 → board i j = blank) ∧
    ((i : Nat) = 7 → board i j ≠ charX) ∧ ((i : Nat) = 0 → board i j ≠ charO) := by
  have wf := reachableWellFormed reachable
  exact ⟨wf.cells i j, wf.dark i j,
    fun last => wf.crowned .x i j (by simp only [Colour.lastRow, boardSize]; omega),
    fun last => wf.crowned .o i j (by simp only [Colour.lastRow]; omega)⟩

def openingCall : Call where
  colour := .x
  before := initializeBoard
  inputs := [⟨3,2,4,2⟩,⟨3,2,4,3⟩]
  turn := ⟨Ply.result ⟨2,1,1,1,1,none⟩ initializeBoard,⟨3,2,4,3⟩,[],
    [.prompt,.incorrect,.prompt,.handOver]⟩

theorem openingRun : Run play [openingCall] openingCall.turn.board :=
  .step (.start rfl) ⟨rfl, rfl, rfl⟩

theorem gameBoardsOpening : openingCall.turn.board 3 2 = charX ∧ openingCall.turn.board 2 2 = blank :=
  ⟨by decide, (gameBoards ⟨_, openingRun⟩ 2 2).2.1 rfl⟩

def playAll (board : Board) : List (Colour × List Coordinates) → Option (List Call × Board)
  | [] => some ([],board)
  | (c,inputs) :: rest =>
    match makeMove board c.man inputs with
    | .ok (some t) => do
      let (calls,last) ← playAll t.board rest
      some (⟨c,board,inputs,t⟩ :: calls,last)
    | _ => none

theorem playAllRun {script : List (Colour × List Coordinates)} {done calls : List Call}
    {board last : Board} (run : Run play done board) (plays : playAll board script = some (calls,last)) :
    Run play (done ++ calls) last := by
  induction script generalizing done calls board with
  | nil =>
    cases Option.some.inj plays
    rwa [List.append_nil]
  | cons turn script ih =>
    obtain ⟨c, inputs⟩ := turn
    simp only [playAll] at plays
    split at plays <;> try contradiction
    rename_i t returns
    simp only [Option.bind_eq_bind, Option.bind_eq_some_iff] at plays
    obtain ⟨⟨later, end'⟩, others, same⟩ := plays
    cases Option.some.inj same
    have next : play.step board ⟨c,board,inputs,t⟩ t.board := ⟨rfl, returns, rfl⟩
    have whole := ih (.step run next) others
    rwa [List.append_assoc] at whole

theorem playedCalls {γ : Type} (view : List Call → Board → γ)
    (script : List (Colour × List Coordinates)) (shown : γ)
    (plays : (playAll initializeBoard script).map (fun r => view r.1 r.2) = some shown) :
    ∃ calls board, Run play calls board ∧ view calls board = shown := by
  obtain ⟨⟨calls, board⟩, happen, same⟩ := Option.map_eq_some_iff.mp plays
  exact ⟨calls, board, playAllRun (.start rfl) happen, same⟩

-- Captures by both, O is crowned, and the king moves.
def crowningScript : List (Colour × List Coordinates) :=
  [(.x,[⟨3,2,4,3⟩]),(.o,[⟨6,1,5,2⟩]),(.x,[⟨2,1,3,2⟩]),(.o,[⟨6,3,5,4⟩]),(.x,[⟨3,4,4,5⟩]),
    (.o,[⟨5,2,4,2⟩,⟨5,2,3,4⟩]),(.x,[⟨1,2,2,1⟩]),(.o,[⟨3,4,1,2⟩]),(.x,[⟨4,5,6,3⟩]),(.o,[⟨1,2,3,4⟩])]

end Warcaby.Play
