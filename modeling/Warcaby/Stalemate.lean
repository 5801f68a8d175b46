import Warcaby.Replay

/-! A player without a move. Nothing in either program looks for one: the player is
asked again and again, the game is stuck, and no program ends. -/
namespace Warcaby.Stalemate
open Grid (Inside get)
open MakeMove Rule Session
open Ownership (Free Takes KingMoves)
open Rounds (silent)
open Rulebook (LegalMove legalMovePly)
open Transition (Run Steps)

def ManMoves (board : Board) (p : Colour) : Prop :=
  ∃ i j : Fin 8, board i j = p.man ∧ ∃ dirY ∈ [(1 : Int),-1],
    Free board i j p.forward dirY ∨ Takes board i j p.forward dirY p.other.man
instance (board p) : Decidable (ManMoves board p) := by unfold ManMoves; infer_instance

-- Either player moves any king.
def CanMove (board : Board) (p : Colour) : Prop :=
  ManMoves board p ∨ KingMoves board .x ∨ KingMoves board .o
instance (board p) : Decidable (CanMove board p) := by unfold CanMove; infer_instance

section Man
variable {board : Board} {p : Colour} {m : Ply} {i j : Fin 8} {dirY : Int}

theorem forwardUnit (p : Colour) : p.forward = 1 ∨ p.forward = -1 := by cases p <;> decide

theorem stepLegal (man : board i j = p.man) (hy : dirY = 1 ∨ dirY = -1)
    (free : Free board i j p.forward dirY) : Legal board p.man ⟨i,j,p.forward,dirY,1,none⟩ := by
  have near : Inside 8 8 ((i : Int) + (1 : Nat) * p.forward) (j + (1 : Nat) * dirY) := by
    simpa using free.1
  refine ⟨⟨forwardUnit p, hy, Nat.one_pos, Grid.insideCell i j, near⟩, ?_, stepPassage rfl rfl,
    .inl ⟨p, rfl, ?_, rfl, .inl rfl⟩⟩
  · simpa [Ply.cell, Ply.row, Ply.column] using free.2
  · simpa [Ply.cell, Ply.row, Ply.column] using man

theorem jumpLegal (man : board i j = p.man) (hy : dirY = 1 ∨ dirY = -1)
    (takes : Takes board i j p.forward dirY p.other.man) :
    Legal board p.man ⟨i,j,p.forward,dirY,2,some 1⟩ := by
  have near : Inside 8 8 ((i : Int) + (2 : Nat) * p.forward) (j + (2 : Nat) * dirY) := by
    simpa using takes.2.1
  have here : Ply.cell ⟨i,j,p.forward,dirY,2,some 1⟩ board 0 = p.man := by
    simpa [Ply.cell, Ply.row, Ply.column] using man
  refine ⟨⟨forwardUnit p, hy, Nat.two_pos, Grid.insideCell i j, near⟩, ?_,
    middlePassage rfl rfl ?_, .inl ⟨p, rfl, here, rfl, .inr ⟨rfl, rfl⟩⟩⟩
  · simpa [Ply.cell, Ply.row, Ply.column] using takes.2.2
  · rw [here, Rulebook.foeOfColour]
    simpa [Ply.cell, Ply.row, Ply.column] using takes.1

theorem legalManMoves (legal : Legal board p.man m) (step : ManStep p.man board m) :
    ManMoves board p := by
  obtain ⟨c, same, man, forward, reach⟩ := step
  obtain rfl := Colour.manUnique same
  obtain ⟨i, j, row, column, cell⟩ := Play.moverCell legal
  have square (k : Nat) : m.cell board k = get board (i + k * m.dirX) (j + k * m.dirY) := by
    rw [Ply.cell, Ply.row, Ply.column, row, column]
  have inside := legal.diagonal.target
  rw [Ply.row, Ply.column, row, column] at inside
  have empty := legal.empty
  rw [square] at empty
  refine ⟨i, j, cell.symm.trans man, m.dirY, Ownership.direction.mpr legal.diagonal.dirY, ?_⟩
  rw [← forward]
  rcases reach with one | ⟨two, jumped⟩
  · refine .inl ⟨?_, ?_⟩
    · simpa [one] using inside
    · simpa [one] using empty
  · have prey := (legal.passage.jump 1 jumped).2.2
    rw [man, Rulebook.foeOfColour, square] at prey
    refine .inr ⟨by simpa using prey, ?_, ?_⟩
    · simpa [two] using inside
    · simpa [two] using empty

theorem someLegal (board : Board) (p : Colour) : (∃ q, LegalMove board p q) ↔ CanMove board p := by
  constructor
  · rintro ⟨q, move⟩
    obtain ⟨m, _, legal⟩ := (legalMovePly board p q).mp move
    rcases legal.mover with step | king | king
    · exact .inl (legalManMoves legal step)
    · exact .inr (.inl (Ownership.legalKingMoves (c := .x) legal king))
    · exact .inr (.inr (Ownership.legalKingMoves (c := .o) legal king))
  · have typed {m : Ply} (legal : Legal board p.man m) : ∃ q, LegalMove board p q :=
      ⟨m.typed, (legalMovePly board p m.typed).mpr ⟨m, rfl, legal⟩⟩
    rintro (⟨i, j, man, dirY, hy, free | takes⟩ | mobile | mobile)
    · exact typed (stepLegal man (Ownership.direction.mp hy) free)
    · exact typed (jumpLegal man (Ownership.direction.mp hy) takes)
    · obtain ⟨m, legal, _⟩ := Ownership.kingMovesLegal mobile p.man
      exact typed legal
    · obtain ⟨m, legal, _⟩ := Ownership.kingMovesLegal mobile p.man
      exact typed legal

end Man

example : CanMove initializeBoard .o ∧ ¬ CanMove (fun _ _ => blank) .o := by decide

section Runs
variable {randNum : Nat} {labels more : List (Action × List Move)} {s t : State}

theorem movesLegal (run : Run (distributed randNum) labels s)
    (steps : Steps (distributed randNum) s more t) (made : moves more ≠ []) :
    ∃ q, LegalMove (latest (moves labels)) (assigned randNum (toMove (moves labels))) q := by
  obtain ⟨m, rest, first⟩ := List.exists_cons_of_ne_nil made
  obtain ⟨place, run', _, _⟩ := Token.reachableHolds (Transition.runSteps run steps)
  have split : moves (labels ++ more) = moves labels ++ m :: rest := by
    rw [Session.movesAppend, first]
  obtain ⟨game, after, earlier, client, board, returns, _⟩ := Transition.runSplit run' split
  obtain rfl := centralisedState earlier
  rw [client, board, assignedMan] at returns
  obtain ⟨ply, returned⟩ := Turn.makeMoveReturned returns
  exact ⟨ply.typed, (legalMovePly _ _ _).mpr ⟨ply, rfl, returned.legal⟩⟩

theorem makesPly (run : Run (distributed randNum) labels s) {ply : Ply}
    (legal : Legal (latest (moves labels)) (assigned randNum (toMove (moves labels))).man ply) :
    ∃ more t m, Steps (distributed randNum) s more t ∧ moves more = [m] ∧
      m.turn.board = ply.result (latest (moves labels)) := by
  obtain ⟨more, t, typed, steps, quiet, _, moving, _, held, mine⟩ := Replay.askedNext run
  have waits := (Replay.accountRun (Transition.runSteps run steps)).waits (toMove (moves labels))
  have soFar : typedSoFar (t.klient (toMove (moves labels))) = typed := by
    simp only [typedSoFar, moving]
  rw [Replay.Waits, soFar] at waits
  rw [← assignedMan, ← held, ← mine] at legal
  obtain ⟨turn, returns, result, _⟩ := Turn.makeMoveLegal (Rulebook.makeMoveWaits.mp waits) legal []
  obtain ⟨later, typing, _, made⟩ := Replay.typesReturning randNum moving
    (by rwa [List.append_nil]) (by rwa [List.append_nil])
  rw [held] at result
  have both := Session.movesAppend more later
  rw [quiet, made, List.nil_append] at both
  exact ⟨more ++ later, _, _, Transition.stepsAppend steps typing, both, result⟩

theorem legalMoves (run : Run (distributed randNum) labels s) {q : Coordinates}
    (legal : LegalMove (latest (moves labels)) (assigned randNum (toMove (moves labels))) q) :
    ∃ more t, Steps (distributed randNum) s more t ∧ moves more ≠ [] := by
  obtain ⟨ply, _, performs⟩ := (legalMovePly _ _ _).mp legal
  obtain ⟨more, t, m, steps, made, _⟩ := makesPly run performs
  exact ⟨more, t, steps, by rw [made]; exact List.cons_ne_nil _ _⟩

theorem stalemate (run : Run (distributed randNum) labels s) :
    ((∃ more t, Steps (distributed randNum) s more t ∧ moves more ≠ []) ↔
      CanMove (latest (moves labels)) (assigned randNum (toMove (moves labels)))) ∧
    (¬ CanMove (latest (moves labels)) (assigned randNum (toMove (moves labels))) →
      ∀ more t, Steps (distributed randNum) s more t →
        moves more = [] ∧ more.countP (fun l => silent l.1) ≤ 6 ∧ ¬ SharedBoard.Failed t) := by
  rw [← someLegal]
  refine ⟨⟨?_, ?_⟩, fun stuck more t steps => ?_⟩
  · rintro ⟨more, t, steps, made⟩
    exact movesLegal run steps made
  · rintro ⟨q, legal⟩
    exact legalMoves run legal
  · have longer := Transition.runSteps run steps
    have none : moves more = [] := by
      by_contra made
      exact stuck (movesLegal run steps made)
    obtain ⟨_, _, holds, _⟩ := Token.reachableHolds longer
    refine ⟨none, ?_, SharedBoard.holdsNotFailed holds⟩
    have before := Rounds.runOutstanding run
    have after := Rounds.runOutstanding longer
    have bound := Rounds.outstandingBound s
    rw [List.countP_append, Session.movesAppend, none, List.append_nil] at after
    omega

theorem stalemateOpening : ∃ labels s, Run (distributed 0) labels s ∧ (moves labels).length = 1 ∧
    ∃ more t, Steps (distributed 0) s more t ∧ moves more ≠ [] := by
  obtain ⟨labels, s, run, shown⟩ := playedRun (fun labels _ => ((moves labels).length,
    decide (CanMove (latest (moves labels)) (assigned 0 (toMove (moves labels))))))
    SharedBoard.openingActions (1,true) (by decide +kernel)
  obtain ⟨one, next⟩ := Prod.mk.inj shown
  exact ⟨labels, s, run, one, (stalemate run).1.mpr (of_decide_eq_true next)⟩

end Runs
end Warcaby.Stalemate
