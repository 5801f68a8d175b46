import Warcaby.Crowning
import Warcaby.Progress
import Warcaby.Stalemate

/-! How long a game can be. Men run out of rows, so without a king that can move there is
an end to it; with one, whoever's turn it is takes it there or back, and there is none. -/
namespace Warcaby.Endless
open MakeMove Rule Turn Session
open Grid (get write getWrite)
open Ownership (KingMoves)
open Progress (MovesMan MovesKing)
open Transition (Run Steps)

def Mobile (board : Board) : Prop := KingMoves board .x ∨ KingMoves board .o
instance (board) : Decidable (Mobile board) := by unfold Mobile; infer_instance

section Ply
variable {board : Board} {player other : Byte} {m : Ply}

def back (m : Ply) : Ply :=
  ⟨m.row m.distance,m.column m.distance,-m.dirX,-m.dirY,m.distance,none⟩

theorem backSquare (m : Ply) {k : Nat} (near : k ≤ m.distance) :
    (back m).row k = m.row (m.distance - k) ∧ (back m).column k = m.column (m.distance - k) := by
  simp only [back, Ply.row, Ply.column, Int.mul_neg, Nat.cast_sub near, Int.sub_mul]
  omega

theorem backCell (m : Ply) (board : Board) {k : Nat} (near : k ≤ m.distance) :
    (back m).cell board k = m.cell board (m.distance - k) := by
  rw [Ply.cell, (backSquare m near).1, (backSquare m near).2, Ply.cell]

theorem movedEnds (diagonal : Diagonal m) :
    m.cell (m.moved board) 0 = blank ∧
    m.cell (m.moved board) m.distance = crowned (m.cell board 0) (m.row m.distance) := by
  refine ⟨?_, ?_⟩
  · rw [Ply.cell, Ply.moved, getWrite _ diagonal.source, Ply.rowZero, Ply.columnZero]
    simp
  · rw [Ply.cell, Ply.moved, getWrite _ diagonal.source, if_neg (sourceNotTarget diagonal),
      getWrite _ diagonal.target]
    simp

theorem resultAlong (legal : Legal board player m) {k : Nat} (near : k ≤ m.distance) :
    m.cell (m.result board) k =
      if k = m.distance then crowned (m.cell board 0) (m.row m.distance) else blank := by
  have moves := legal.diagonal.moves
  have moved : m.cell (m.moved board) k =
      if k = m.distance then crowned (m.cell board 0) (m.row m.distance)
      else if k = 0 then blank else m.cell board k := by
    split
    · rename_i last
      rw [last, (movedEnds legal.diagonal).2]
    · split
      · rename_i first
        rw [first, (movedEnds legal.diagonal).1]
      · exact movedInside legal.diagonal (by omega) (by omega)
  unfold Ply.result
  cases jumped : m.jumped with
  | none =>
    dsimp only
    rw [moved]
    split
    · rfl
    · split
      · rfl
      · exact legal.passage.clear k (by omega) (by omega) (by rw [jumped]; nofun)
  | some l =>
    obtain ⟨positive, before, _⟩ := legal.passage.jump l jumped
    dsimp only
    rw [Ply.cell, getWrite _ (diagonalInside legal.diagonal (Nat.le_of_lt before))]
    by_cases here : k = l
    · subst here
      simp [Nat.ne_of_lt before]
    · rw [if_neg (fun same => rowsApart legal.diagonal here same.1), ← Ply.cell, moved]
      split
      · rfl
      · split
        · rfl
        · refine legal.passage.clear k (by omega) (by omega) (fun same => here ?_)
          exact Option.some.inj (same.symm.trans jumped)

theorem kingLands (legal : Legal board player m) (king : KingStep board m) :
    m.cell (m.result board) m.distance = m.cell board 0 := by
  rw [resultAlong legal (Nat.le_refl _), if_pos rfl, crownedKing king]

theorem backKing (legal : Legal board player m) (king : KingStep board m) :
    KingStep (m.result board) (back m) := by
  have here : (back m).cell (m.result board) 0 = m.cell board 0 := by
    rw [backCell m _ (Nat.zero_le _), Nat.sub_zero]
    exact kingLands legal king
  unfold KingStep
  rw [here]
  exact king

theorem backLegal (legal : Legal board player m) (king : KingStep board m) (other : Byte) :
    Legal (m.result board) other (back m) := by
  have diagonal := legal.diagonal
  have cells {k : Nat} (positive : 0 < k) (near : k ≤ m.distance) :
      (back m).cell (m.result board) k = blank := by
    rw [backCell m _ near, resultAlong legal (Nat.sub_le _ _), if_neg (by omega)]
  refine ⟨⟨?_, ?_, diagonal.moves, diagonal.target, ?_⟩, cells diagonal.moves (Nat.le_refl _),
    ⟨nofun, fun k positive near _ => cells positive (Nat.le_of_lt near)⟩, .inr (backKing legal king)⟩
  · have direction := diagonal.dirX
    simp only [back]
    omega
  · have direction := diagonal.dirY
    simp only [back]
    omega
  · have ends := backSquare m (Nat.le_refl m.distance)
    rw [Nat.sub_self, Ply.rowZero, Ply.columnZero] at ends
    have target := diagonal.source
    rw [← ends.1, ← ends.2] at target
    exact target

theorem mobilePly : Mobile board ↔ ∃ m, Legal board player m ∧ KingStep board m := by
  constructor
  · rintro (mobile | mobile)
    · obtain ⟨m, legal, king⟩ := Ownership.kingMovesLegal mobile player
      exact ⟨m, legal, .inl king⟩
    · obtain ⟨m, legal, king⟩ := Ownership.kingMovesLegal mobile player
      exact ⟨m, legal, .inr king⟩
  · rintro ⟨m, legal, d | q⟩
    · exact .inl (Ownership.legalKingMoves (c := .x) legal d)
    · exact .inr (Ownership.legalKingMoves (c := .o) legal q)

end Ply

section Runs
variable {randNum : Nat} {labels more : List (Action × List Move)} {s t : State} {m : Move}

theorem mobileNext (run : Run (distributed randNum) labels s) (mobile : Mobile (latest (moves labels))) :
    ∃ more t, Steps (distributed randNum) s more t ∧ (moves more).length = 1 ∧
      Mobile (latest (moves (labels ++ more))) := by
  obtain ⟨ply, legal, king⟩ := mobilePly.mp mobile
  obtain ⟨more, t, m, steps, made, result⟩ := Stalemate.makesPly run legal
  refine ⟨more, t, steps, by rw [made]; rfl, ?_⟩
  have newest : latest (moves (labels ++ more)) = m.turn.board := by
    simp [Session.movesAppend, made, latest]
  rw [newest, result]
  exact mobilePly.mpr ⟨back ply, backLegal legal king charX, backKing legal king⟩

theorem mobileFor (run : Run (distributed randNum) labels s) (mobile : Mobile (latest (moves labels)))
    (n : Nat) : ∃ more t, Steps (distributed randNum) s more t ∧ (moves more).length = n := by
  induction n generalizing labels s with
  | zero => exact ⟨[], s, .nil s, rfl⟩
  | succ n ih =>
    obtain ⟨more, t, steps, one, still⟩ := mobileNext run mobile
    obtain ⟨later, u, steps', rest⟩ := ih (Transition.runSteps run steps) still
    refine ⟨more ++ later, u, Transition.stepsAppend steps steps', ?_⟩
    rw [Session.movesAppend, List.length_append, one, rest, Nat.add_comm]

theorem madeAlone {a : Action} {made : List Move} (next : act s a = some (made,t)) (inside : m ∈ made) :
    made = [m] := by
  cases a with
  | types c q =>
    obtain ⟨turn, _, _, rfl, _⟩ := klientScanned next
    cases turn with
    | none => simp at inside
    | some turn => simpa [eq_comm] using inside
  | serverSends =>
    obtain ⟨_, _, _, _, rfl, _⟩ := serverSent next
    simp at inside
  | serverReceives =>
    obtain ⟨_, _, _, _, _, _, _, _, rfl, _⟩ := serverReceived next
    simp at inside
  | receives c =>
    obtain ⟨_, _, _, _, _, rfl, _⟩ := klientReceived next
    simp at inside
  | sends c =>
    obtain ⟨_, _, _, rfl, _⟩ := klientSent next
    simp at inside

theorem moveReached (run : Run (distributed randNum) labels s)
    (steps : Steps (distributed randNum) s more t) (inside : m ∈ moves more) :
    ∃ early u, Steps (distributed randNum) s early u ∧ m.before = latest (moves (labels ++ early)) ∧
      ∃ p : Colour, makeMove m.before p.man m.inputs = .ok (some m.turn) := by
  obtain ⟨l, member, made⟩ := List.mem_flatMap.mp inside
  obtain ⟨early, late, rfl⟩ := List.append_of_mem member
  obtain ⟨u, begins, ends⟩ := Transition.stepsSplit steps
  have before := Transition.runSteps run begins
  cases ends with
  | @cons _ l v _ _ next _ =>
    have alone := madeAlone next made
    obtain ⟨place, run', _, _⟩ := Token.reachableHolds (.step before next)
    have split : moves (labels ++ early ++ [l]) = moves (labels ++ early) ++ m :: [] := by
      rw [Session.movesAppend, moves, moves, List.flatMap_singleton, alone]
    obtain ⟨game, after, earlier, client, board, returns, _⟩ := Transition.runSplit run' split
    obtain rfl := centralisedState earlier
    rw [assignedMan] at returns
    exact ⟨early, u, begins, board, _, returns⟩

theorem kingReached (run : Run (distributed randNum) labels s)
    (steps : Steps (distributed randNum) s more t) (inside : m ∈ moves more)
    (king : MovesKing m.before m.turn) :
    ∃ early u, Steps (distributed randNum) s early u ∧ Mobile (latest (moves (labels ++ early))) := by
  obtain ⟨early, u, begins, board, p, returns⟩ := moveReached run steps inside
  obtain ⟨ply, returned⟩ := makeMoveReturned returns
  rw [MovesKing, Accounting.movedCell returned] at king
  refine ⟨early, u, begins, ?_⟩
  rw [← board]
  exact mobilePly.mpr ⟨ply, returned.legal, king⟩

theorem menLeft (run : Run (distributed randNum) labels s)
    (steps : Steps (distributed randNum) s more t)
    (never : ∀ early u, Steps (distributed randNum) s early u →
      ¬ Mobile (latest (moves (labels ++ early)))) : (moves more).length ≤ 144 := by
  have longer := SharedBoard.networkGame (Transition.runSteps run steps)
  have men := Progress.menMoves longer
  have all : ((moves more).map (call randNum)).countP (fun c => MovesMan c.before c.turn) =
      ((moves more).map (call randNum)).length := by
    refine List.countP_eq_length.mpr (fun c member => ?_)
    obtain ⟨m, inside, rfl⟩ := List.mem_map.mp member
    obtain ⟨_, _, _, _, p, returns⟩ := moveReached run steps inside
    rcases Progress.manOrKing returns with man | king
    · exact decide_eq_true man
    · obtain ⟨early, u, begins, mobile⟩ := kingReached run steps inside king
      exact absurd mobile (never early u begins)
  rw [Session.movesAppend, List.map_append, List.countP_append, all, List.length_map] at men
  omega

theorem endless (run : Run (distributed randNum) labels s) :
    ((∀ n, ∃ more t, Steps (distributed randNum) s more t ∧ n ≤ (moves more).length) ↔
      ∃ more t, Steps (distributed randNum) s more t ∧ Mobile (latest (moves (labels ++ more)))) ∧
    ((¬ ∃ more t, Steps (distributed randNum) s more t ∧ Mobile (latest (moves (labels ++ more)))) →
      ∀ more t, Steps (distributed randNum) s more t → (moves more).length ≤ 144) := by
  have bound (never : ¬ ∃ more t, Steps (distributed randNum) s more t ∧
      Mobile (latest (moves (labels ++ more)))) (more : List (Action × List Move)) (t : State)
      (steps : Steps (distributed randNum) s more t) : (moves more).length ≤ 144 :=
    menLeft run steps (fun early u begins mobile => never ⟨early, u, begins, mobile⟩)
  refine ⟨⟨fun long => ?_, ?_⟩, bound⟩
  · by_contra never
    obtain ⟨more, t, steps, many⟩ := long 145
    have few := bound never more t steps
    omega
  · rintro ⟨more, t, steps, mobile⟩ n
    obtain ⟨later, u, steps', exact'⟩ := mobileFor (Transition.runSteps run steps) mobile n
    refine ⟨more ++ later, u, Transition.stepsAppend steps steps', ?_⟩
    rw [Session.movesAppend, List.length_append]
    omega

theorem endlessCrowned : ∃ labels s, Run (distributed 0) labels s ∧ (moves labels).length = 8 ∧
    ∀ n, ∃ more t, Steps (distributed 0) s more t ∧ n ≤ (moves more).length := by
  obtain ⟨labels, s, run, made⟩ := Crowning.crowningRun
  have free : (Replay.replay 0 Crowning.crowningScripts).length = 8 ∧
      Mobile (latest (Replay.replay 0 Crowning.crowningScripts)) := by decide +kernel
  rw [← made] at free
  refine ⟨labels, s, run, free.1, (endless run).1.mpr ⟨[], s, .nil s, ?_⟩⟩
  rw [List.append_nil]
  exact free.2

end Runs
end Warcaby.Endless
