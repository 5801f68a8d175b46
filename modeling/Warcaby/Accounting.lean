import Warcaby.Play

/-! Piece accounting. A ply keeps the number of pieces of the moving colour and
takes at most one piece of the other; over a game, pieces on the board and
pieces captured always add up to the twelve each side starts with. -/
namespace Warcaby.Accounting
open MakeMove Rule Turn Play
open Transition (Run)

def pieces (c : Colour) (board : Board) : Nat := Grid.count c.owns board

/- Square (i, j) was emptied by a jump: it is not the source, it held `c`, and it is
blank afterwards. -/
def Jumped (c : Colour) (before : Board) (t : MakeMove.Turn) : Prop :=
  ∃ i j : Fin 8, ¬ ((i : Int) = t.typed.x1 - 1 ∧ (j : Int) = t.typed.y1 - 1) ∧
    c.owns (before i j) = true ∧ t.board i j = blank
instance (c before t) : Decidable (Jumped c before t) := by unfold Jumped; infer_instance

def moved (before : Board) (t : MakeMove.Turn) : Byte :=
  Grid.get before (t.typed.x1 - 1) (t.typed.y1 - 1)

section Ply
variable {board : Board} {player : Byte} {m : Ply}

theorem foeOwner {c : Colour} {piece : Byte} (own : c.owns piece = true) :
    foe piece = c.other.man := by
  rcases Colour.ownsPiece.mp own with rfl | rfl <;> cases c <;> rfl

theorem moverOwner (legal : Legal board player m) :
    ∃ c : Colour, c.owns (m.cell board 0) = true := by
  rcases legal.mover with ⟨c, _, man, _⟩ | king | king
  · exact ⟨c, by rw [man]; exact c.ownsMan⟩
  · exact ⟨.x, by rw [king]; decide⟩
  · exact ⟨.o, by rw [king]; decide⟩

def ownWeight (c : Colour) (_ _ : Int) (cell : Byte) : Nat := if c.owns cell then 1 else 0

theorem piecesTotal (c : Colour) (board : Board) :
    pieces c board = Grid.total (ownWeight c) board := rfl

theorem ownBlank (c : Colour) (x y : Int) : ownWeight c x y blank = 0 := by
  cases c <;> rfl

/- The count of either colour changes by the jumped man only: the moved piece is
counted before and after, crowned or not. -/
theorem resultPieces (legal : Legal board player m) (c : Colour) :
    pieces c (m.result board) + jumpedWeight (ownWeight c) m board = pieces c board := by
  have totals := resultTotal legal.diagonal legal.empty legal.passage (ownBlank c)
  have landed : ownWeight c (m.row m.distance) (m.column m.distance)
      (crowned (m.cell board 0) (m.row m.distance)) = ownWeight c m.x m.y (m.cell board 0) := by
    unfold ownWeight
    rw [crownedOwner]
  rw [landed] at totals
  rw [piecesTotal, piecesTotal]
  omega

theorem emptied (legal : Legal board player m) {i j : Fin 8} (occupied : board i j ≠ blank)
    (empty : m.result board i j = blank) :
    ((i : Int) = m.x ∧ (j : Int) = m.y) ∨
    ∃ k, m.jumped = some k ∧ (i : Int) = m.row k ∧ (j : Int) = m.column k := by
  have kept (apart : ¬ ((i : Int) = m.x ∧ (j : Int) = m.y)) : m.moved board i j = board i j := by
    have notTarget : ¬ ((i : Int) = m.row m.distance ∧ (j : Int) = m.column m.distance) := by
      intro ⟨row, column⟩
      have vacant := legal.empty
      rw [Ply.cell, ← row, ← column, Grid.getCell] at vacant
      exact occupied vacant
    rw [Ply.moved, Grid.writeCell, if_neg apart, Grid.writeCell, if_neg notTarget]
  by_cases source : (i : Int) = m.x ∧ (j : Int) = m.y
  · exact .inl source
  · refine .inr ?_
    unfold Ply.result at empty
    cases jumped : m.jumped with
    | none =>
      simp only [jumped] at empty
      exact absurd ((kept source).symm.trans empty) occupied
    | some k =>
      simp only [jumped, Grid.writeCell (m.moved board)] at empty
      by_cases here : (i : Int) = m.row k ∧ (j : Int) = m.column k
      · exact ⟨k, rfl, here⟩
      · rw [if_neg here] at empty
        exact absurd ((kept source).symm.trans empty) occupied

theorem jumpedEmptied {k : Nat} (legal : Legal board player m) (jumped : m.jumped = some k) :
    ∃ i j : Fin 8, m.row k = i ∧ m.column k = j ∧ ¬ ((i : Int) = m.x ∧ (j : Int) = m.y) ∧
      board i j = m.cell board k ∧ m.result board i j = blank := by
  obtain ⟨positive, near, _⟩ := legal.passage.jump k jumped
  obtain ⟨i, j, row, column⟩ :=
    Grid.insideIndices (diagonalInside legal.diagonal (Nat.le_of_lt near))
  refine ⟨i, j, row, column, fun source => ?_, ?_, ?_⟩
  · have apart := rowsApart legal.diagonal (k := k) (l := 0) (by omega)
    rw [Ply.rowZero, row] at apart
    exact apart source.1
  · rw [Ply.cell, row, column, Grid.getCell]
  · simp [Ply.result, jumped, Grid.writeCell, row, column]

theorem jumpedSquare (legal : Legal board player m) {t : MakeMove.Turn}
    (result : t.board = m.result board) (typed : t.typed = m.typed) (c : Colour) :
    Jumped c board t ↔ ∃ k, m.jumped = some k ∧ c.owns (m.cell board k) = true := by
  have source (i j : Fin 8) : ((i : Int) = t.typed.x1 - 1 ∧ (j : Int) = t.typed.y1 - 1) ↔
      ((i : Int) = m.x ∧ (j : Int) = m.y) := by
    rw [typed]
    simp only [Ply.typed]
    omega
  simp only [Jumped, source, result]
  constructor
  · rintro ⟨i, j, apart, own, empty⟩
    have occupied : board i j ≠ blank := by
      intro vacant
      rw [vacant, Colour.ownsBlank] at own
      cases own
    rcases emptied legal occupied empty with here | ⟨k, jumped, row, column⟩
    · exact absurd here apart
    · refine ⟨k, jumped, ?_⟩
      rw [Ply.cell, ← row, ← column, Grid.getCell]
      exact own
  · rintro ⟨k, jumped, own⟩
    obtain ⟨i, j, _, _, apart, cell, empty⟩ := jumpedEmptied legal jumped
    exact ⟨i, j, apart, by rw [cell]; exact own, empty⟩

theorem jumpedCount (legal : Legal board player m) {t : MakeMove.Turn}
    (result : t.board = m.result board) (typed : t.typed = m.typed) (c : Colour) :
    jumpedWeight (ownWeight c) m board = if Jumped c board t then 1 else 0 := by
  simp only [jumpedSquare legal result typed c]
  unfold jumpedWeight ownWeight
  cases m.jumped with
  | none => simp
  | some k => simp

end Ply

theorem callPieces {before : Board} {player : Byte} {inputs : List Coordinates} {t : MakeMove.Turn}
    (returns : makeMove before player inputs = .ok (some t)) (c : Colour) :
    pieces c t.board + (if Jumped c before t then 1 else 0) = pieces c before := by
  obtain ⟨m, returned⟩ := makeMoveReturned returns
  rw [← jumpedCount returned.legal returned.result returned.typed c, returned.result]
  exact resultPieces returned.legal c

theorem movedCell {before : Board} {player : Byte} {inputs : List Coordinates} {t : MakeMove.Turn}
    {m : Ply} (returned : Returned before player inputs t m) : moved before t = m.cell before 0 := by
  rw [moved, returned.typed, Ply.cell, Ply.rowZero, Ply.columnZero]
  simp [Ply.typed]

theorem ownNeverJumped {before : Board} {player : Byte} {inputs : List Coordinates}
    {t : MakeMove.Turn} (returns : makeMove before player inputs = .ok (some t)) {c : Colour}
    (own : c.owns (moved before t) = true) : ¬ Jumped c before t := by
  obtain ⟨m, returned⟩ := makeMoveReturned returns
  rw [movedCell returned] at own
  rw [jumpedSquare returned.legal returned.result returned.typed c]
  intro ⟨k, jumped, captured⟩
  rw [(returned.legal.passage.jump k jumped).2.2, foeOwner own, Colour.ownsOther] at captured
  cases captured

def captured (c : Colour) (calls : List Call) : Nat :=
  calls.countP (fun call => Jumped c call.before call.turn)

theorem initialPieces (c : Colour) : pieces c initializeBoard = 12 := by
  cases c <;> decide

theorem gamePieces {calls : List Call} {board : Board} (run : Run play calls board) (c : Colour) :
    pieces c board + captured c calls = 12 := by
  induction run with
  | start first => rw [first, initialPieces]; rfl
  | @step calls board call after before next ih =>
    obtain ⟨rfl, returns, rfl⟩ := next
    have count := callPieces returns c
    have last : captured c (calls ++ [call]) =
        captured c calls + (if Jumped c call.before call.turn then 1 else 0) := by
      simp [captured, List.countP_append, List.countP_singleton]
    omega

/- Any occupied square but the source that a call emptied: on game cells that is a
jump over a piece of the other colour. -/
def Emptied (before : Board) (t : MakeMove.Turn) : Prop :=
  ∃ i j : Fin 8, ¬ ((i : Int) = t.typed.x1 - 1 ∧ (j : Int) = t.typed.y1 - 1) ∧
    before i j ≠ blank ∧ t.board i j = blank
instance (before t) : Decidable (Emptied before t) := by unfold Emptied; infer_instance

theorem emptiedJumped {before : Board} {player : Byte} {inputs : List Coordinates}
    {t : MakeMove.Turn} (cells : GameCells before)
    (returns : makeMove before player inputs = .ok (some t)) {c : Colour}
    (own : c.owns (moved before t) = true) : Emptied before t ↔ Jumped c.other before t := by
  constructor
  · intro ⟨i, j, apart, occupied, empty⟩
    rcases gameCellPiece (cells i j) with vacant | ⟨d, piece⟩
    · exact absurd vacant occupied
    · have owner : d.owns (before i j) = true := Colour.ownsPiece.mpr piece
      have foreign : d ≠ c := by
        intro same
        exact ownNeverJumped returns own ⟨i, j, apart, same ▸ owner, empty⟩
      have other : d = c.other := Colour.otherOfApart foreign
      exact ⟨i, j, apart, other ▸ owner, empty⟩
  · intro ⟨i, j, apart, owner, empty⟩
    refine ⟨i, j, apart, fun vacant => ?_, empty⟩
    rw [vacant, Colour.ownsBlank] at owner
    cases owner

theorem pieceAccounting :
    (∀ (before : Board) (p : Colour) (inputs : List Coordinates) (t : MakeMove.Turn),
      GameCells before → makeMove before p.man inputs = .ok (some t) →
      (∃ c : Colour, c.owns (moved before t) = true) ∧
      ∀ c : Colour, c.owns (moved before t) = true →
        pieces c t.board = pieces c before ∧
        pieces c.other t.board + (if Emptied before t then 1 else 0) = pieces c.other before) ∧
    (∀ (calls : List Call) (board : Board), Run play calls board →
      ∀ c : Colour, pieces c board + captured c calls = 12) := by
  refine ⟨fun before p inputs t cells returns => ⟨?_, fun c own => ?_⟩,
    fun _ _ run c => gamePieces run c⟩
  · obtain ⟨m, returned⟩ := makeMoveReturned returns
    rw [movedCell returned]
    exact moverOwner returned.legal
  · have mine := callPieces returns c
    rw [if_neg (ownNeverJumped returns own), Nat.add_zero] at mine
    refine ⟨mine, ?_⟩
    simp only [emptiedJumped cells returns own]
    exact callPieces returns c.other

theorem pieceAccountingCrowned : ∃ calls board, Run play calls board ∧
    captured .x calls = 2 ∧ pieces .x board = 10 ∧ pieces .o board = 11 ∧
    ∃ call ∈ calls, Emptied call.before call.turn ∧
      pieces Colour.x.other call.turn.board + 1 = pieces Colour.x.other call.before := by
  let captures (call : Call) : Bool := GameCells call.before ∧ call.colour = .x ∧
    Colour.x.owns (moved call.before call.turn) ∧ Emptied call.before call.turn
  obtain ⟨calls, board, run, shown⟩ := playedCalls
    (fun calls _ => (captured .x calls,captured .o calls,calls[8]?.map captures))
    crowningScript (2,1,some true) (by decide +kernel)
  simp only [Prod.mk.injEq, Option.map_eq_some_iff] at shown
  obtain ⟨two, one, call, there, captures⟩ := shown
  obtain ⟨cells, colour, own, emptied⟩ := of_decide_eq_true captures
  have inside := List.mem_of_getElem? there
  have returns := runReturns run call inside
  rw [Call.Returns, colour] at returns
  have law := (pieceAccounting.1 call.before .x call.inputs call.turn cells returns).2 .x own
  rw [if_pos emptied] at law
  have twelve := pieceAccounting.2 calls board run .x
  have twelve' := pieceAccounting.2 calls board run .o
  exact ⟨calls, board, run, two, by omega, by omega, call, inside, emptied, law.2⟩

end Warcaby.Accounting
