import Warcaby.Rule

/-! The loop body of `make_move` against the rule. The king branch scans its whole
diagonal before it decides; the man branch looks at one middle square. Either
way four integers are accepted exactly when they spell a legal ply. -/
namespace Warcaby.Rule
open Grid (Inside get write getWrite)
open MakeMove

inductive Sighted (board : Board) (m : Ply) (enemy : Byte) (i : Nat) : Scan → Prop where
  | clear (mid : Option (Int × Int)) (blanks : ∀ k, 0 < k → k ≤ i → m.cell board k = blank) :
      Sighted board m enemy i ⟨0,0,mid⟩
  | one (k : Nat) (inside : 0 < k ∧ k ≤ i) (found : m.cell board k = enemy)
      (blanks : ∀ l, 0 < l → l ≤ i → l ≠ k → m.cell board l = blank) :
      Sighted board m enemy i ⟨1,0,some (m.row k,m.column k)⟩
  | many (n : Nat) (mid : Option (Int × Int)) (k l : Nat)
      (inside : 0 < k ∧ k < l ∧ l ≤ i) (first : m.cell board k = enemy)
      (second : m.cell board l = enemy) : Sighted board m enemy i ⟨n + 2,0,mid⟩
  | own (n o : Nat) (mid : Option (Int × Int)) (k : Nat) (inside : 0 < k ∧ k ≤ i)
      (occupied : m.cell board k ≠ blank) (notEnemy : m.cell board k ≠ enemy) :
      Sighted board m enemy i ⟨n,o + 1,mid⟩

section Scanning
variable {board : Board} {m : Ply} {enemy : Byte} {i : Nat} {s : Scan}

theorem sightedBlank (seen : Sighted board m enemy i s) (empty : m.cell board (i + 1) = blank) :
    Sighted board m enemy (i + 1) s := by
  cases seen with
  | clear mid blanks =>
    refine .clear mid (fun k positive near => ?_)
    by_cases last : k = i + 1
    · rw [last]; exact empty
    · exact blanks k positive (by omega)
  | one k inside found blanks =>
    refine .one k (by omega) found (fun l positive near other => ?_)
    by_cases last : l = i + 1
    · rw [last]; exact empty
    · exact blanks l positive (by omega) other
  | many n mid k l inside first second => exact .many n mid k l (by omega) first second
  | own n o mid k inside occupied notEnemy => exact .own n o mid k (by omega) occupied notEnemy

theorem sightedEnemy (seen : Sighted board m enemy i s) (found : m.cell board (i + 1) = enemy) :
    Sighted board m enemy (i + 1)
      {s with opponentPieces := s.opponentPieces + 1,
              mid := some (m.row (i + 1),m.column (i + 1))} := by
  cases seen with
  | clear mid blanks =>
    exact .one (i + 1) (by omega) found (fun l positive near other => blanks l positive (by omega))
  | one k inside first blanks => exact .many 0 _ k (i + 1) (by omega) first found
  | many n mid k l inside first second => exact .many (n + 1) _ k l (by omega) first second
  | own n o mid k inside occupied notEnemy => exact .own (n + 1) o _ k (by omega) occupied notEnemy

theorem sightedOwn (s : Scan) (occupied : m.cell board (i + 1) ≠ blank)
    (notEnemy : m.cell board (i + 1) ≠ enemy) :
    Sighted board m enemy (i + 1) {s with ownPieces := s.ownPieces + 1} :=
  .own s.opponentPieces s.ownPieces s.mid (i + 1) (by omega) occupied notEnemy

end Scanning

def enemyOfKing (piece : Byte) : Byte := if piece = charD then charO else charX

theorem scanStep {board : Board} {m : Ply} {piece : Byte} {i : Nat} {s : Scan}
    (inside : Inside 8 8 (m.row (i + 1)) (m.column (i + 1)))
    (seen : Sighted board m (enemyOfKing piece) i s) :
    ∃ next, scanCell board piece m.vars m.dirX m.dirY s (i + 1) = .ok next ∧
      Sighted board m (enemyOfKing piece) (i + 1) next := by
  have loaded : load board (m.vars.x1 + ((i + 1 : Nat) : Int) * m.dirX)
      (m.vars.y1 + ((i + 1 : Nat) : Int) * m.dirY) = .ok (m.cell board (i + 1)) :=
    loadInside inside board
  simp only [scanCell, loaded, okBind]
  by_cases empty : m.cell board (i + 1) = blank
  · exact ⟨s, by simp [empty], sightedBlank seen empty⟩
  · rw [if_pos empty]
    by_cases found : m.cell board (i + 1) = enemyOfKing piece
    · exact ⟨_, if_pos found, sightedEnemy seen found⟩
    · exact ⟨_, if_neg found, sightedOwn s empty found⟩

theorem scanRun {board : Board} {m : Ply} {piece : Byte} (n : Nat)
    (inside : ∀ k ≤ n, Inside 8 8 (m.row k) (m.column k)) :
    ∃ s, (List.range' 1 n).foldlM (scanCell board piece m.vars m.dirX m.dirY) ⟨0,0,none⟩ = .ok s ∧
      Sighted board m (enemyOfKing piece) n s := by
  induction n with
  | zero => exact ⟨_, rfl, .clear none (fun k positive near => by omega)⟩
  | succ n ih =>
    obtain ⟨s, ran, before⟩ := ih (fun k near => inside k (by omega))
    obtain ⟨next, stepped, seen⟩ := scanStep (inside (n + 1) (Nat.le_refl _)) before
    refine ⟨next, ?_, seen⟩
    rw [List.range'_concat, List.foldlM_append, ran]
    rw [Nat.one_mul, Nat.add_comm 1 n]
    simp only [List.foldlM_cons, List.foldlM_nil, okBind, stepped]
    rfl

theorem divideDirection {n : Nat} (positive : 0 < n) {u : Int} (direction : u = 1 ∨ u = -1) :
    divide (n * u) n = .ok u := by
  have nonzero : (n : Int) ≠ 0 := by omega
  unfold divide
  rw [if_neg nonzero]
  rcases direction with rfl | rfl
  · rw [Int.mul_one, Int.tdiv_self nonzero]
  · rw [Int.mul_neg, Int.mul_one, Int.neg_tdiv, Int.tdiv_self nonzero]

def performed (board : Board) (m : Ply) : Checked Pass := .ok (accepted m.vars (m.result board))

def Refuses (board : Board) (out : Checked Pass) : Prop :=
  ∃ r, out = .ok r ∧ r.correctMove = false ∧ r.board = board

section King
variable {board : Board} {m : Ply}

theorem kingScanned (diagonal : Diagonal m) (piece : Byte) :
    ∃ s, Sighted board m (enemyOfKing piece) (m.distance - 1) s ∧
      kingBranch board piece m.vars m.distance m.distance =
        if s.ownPieces > 0 then
          .ok ⟨m.vars,board,false,[.prompt,.ownPieceInTheWay,.handOver]⟩
        else if s.opponentPieces ≤ 1 then do
          let captured ← removeMid (write (write board (m.row m.distance) (m.column m.distance) piece)
            m.x m.y blank) s
          .ok (accepted m.vars captured)
        else .ok (rejected m.vars board .obstacle) := by
  obtain ⟨s, ran, seen⟩ := scanRun (m.distance - 1)
    (fun k near => diagonalInside diagonal (by omega : k ≤ m.distance))
  refine ⟨s, seen, ?_⟩
  have alongX : m.vars.x2 - m.vars.x1 = m.distance * m.dirX := by
    simp [Ply.vars, Ply.row]
  have alongY : m.vars.y2 - m.vars.y1 = m.distance * m.dirY := by
    simp [Ply.vars, Ply.column]
  have length : ((m.distance : Int) - 1).toNat = m.distance - 1 := by omega
  have landing (b : Board) : store b m.vars.x2 m.vars.y2 piece =
      .ok (write b (m.row m.distance) (m.column m.distance) piece) := storeInside diagonal.target b piece
  have leaving (b : Board) : store b m.vars.x1 m.vars.y1 blank = .ok (write b m.x m.y blank) :=
    storeInside diagonal.source b blank
  unfold kingBranch
  rw [if_pos rfl, alongX, alongY, divideDirection diagonal.moves diagonal.dirX,
    divideDirection diagonal.moves diagonal.dirY, length]
  simp only [okBind, ran, landing, leaving]

theorem crownedKing {piece : Byte} (king : piece = charD ∨ piece = charQ) (row : Int) :
    crowned piece row = piece := by
  rcases king with rfl | rfl <;> simp [crowned, charX, charO, charD, charQ]

theorem enemyFoe {piece : Byte} (king : piece = charD ∨ piece = charQ) :
    enemyOfKing piece = foe piece := by
  rcases king with rfl | rfl <;> rfl

theorem kingVerdict (diagonal : Diagonal m) (king : KingStep board m) :
    (∃ j, Passage board (m.jumping j) ∧
      kingBranch board (m.cell board 0) m.vars m.distance m.distance =
        performed board (m.jumping j)) ∨
    ((∀ j, ¬ Passage board (m.jumping j)) ∧
      Refuses board (kingBranch board (m.cell board 0) m.vars m.distance m.distance)) := by
  obtain ⟨s, seen, branch⟩ := kingScanned diagonal (m.cell board 0)
  rw [branch]
  rw [enemyFoe king] at seen
  cases seen with
  | clear mid blanks =>
    refine .inl ⟨none, ⟨nofun, fun k positive near _ => blanks k positive ?_⟩, ?_⟩
    · change k < m.distance at near; omega
    · simp only [performed, Ply.result, Ply.moved, Ply.jumping]
      exact congrArg (fun p => Except.ok (accepted m.vars
        (write (write board (m.row m.distance) (m.column m.distance) p) m.x m.y blank)))
        (crownedKing king _).symm
  | one k inside found blanks =>
    have near : k < m.distance := by omega
    have passage : Passage board (m.jumping (some k)) :=
      jumpPassage rfl ⟨inside.1, near⟩ found (fun l positive below apart =>
        blanks l positive (Nat.le_sub_one_of_lt below) apart)
    refine .inl ⟨some k, passage, ?_⟩
    have removed (b : Board) : removeMid b ⟨1,0,some (m.row k,m.column k)⟩ =
        .ok (write b (m.row k) (m.column k) blank) :=
      storeInside (diagonalInside diagonal (Nat.le_of_lt near)) b blank
    simp only [performed, Ply.result, Ply.moved, Ply.jumping, removed]
    exact congrArg (fun p => Except.ok (accepted m.vars
      (write (write (write board (m.row m.distance) (m.column m.distance) p) m.x m.y blank)
        (m.row k) (m.column k) blank))) (crownedKing king _).symm
  | many n mid k l inside first second =>
    refine .inr ⟨fun j passage => ?_, _, rfl, rfl, rfl⟩
    have one := occupiedJumped passage (k := k) (by omega) (by omega)
      (fun empty => foeNotBlank _ (first.symm.trans empty))
    have two := occupiedJumped passage (k := l) (by omega) (by omega)
      (fun empty => foeNotBlank _ (second.symm.trans empty))
    have same : k = l := Option.some.inj (one.1.symm.trans two.1)
    omega
  | own n o mid k inside occupied notEnemy =>
    refine .inr ⟨fun j passage => ?_, _, rfl, rfl, rfl⟩
    exact notEnemy (occupiedJumped passage inside.1 (by omega) occupied).2

end King

/- The verdict on four coordinates: they spell a legal ply, which is performed,
or they spell none, and the board stays. -/
def Verdict (board : Board) (player : Byte) (v : Coordinates) (out : Checked Pass) : Prop :=
  (∃ m : Ply, m.vars = v ∧ Legal board player m ∧ out = performed board m) ∨
  ((∀ m : Ply, m.vars = v → ¬ Legal board player m) ∧ Refuses board out)

theorem refusedRejected {board : Board} {player : Byte} {v : Coordinates} {notice : Notice}
    (never : ∀ m : Ply, m.vars = v → ¬ Legal board player m) :
    Verdict board player v (.ok (rejected v board notice)) :=
  .inr ⟨never, _, rfl, rfl, rfl⟩

/- `promote` overwrites the target a second time, after the source and the jumped square
were emptied; the rule crowns the man as it lands. -/
section Man
variable {board : Board} {m : Ply} {c : Colour} {player : Byte}

theorem promoteCrowned (diagonal : Diagonal m)
    (landed : get board (m.row m.distance) (m.column m.distance) = player) :
    promote board player m.vars =
      .ok (write board (m.row m.distance) (m.column m.distance)
        (crowned player (m.row m.distance))) := by
  have landing (value : Byte) : store board m.vars.x2 m.vars.y2 value =
      .ok (write board (m.row m.distance) (m.column m.distance) value) :=
    storeInside diagonal.target board value
  unfold promote crowned
  simp only [landing]
  change (if player = charX ∧ m.row m.distance = boardSize - 1 then _ else
    if player = charO ∧ m.row m.distance = 0 then _ else _) = _
  split
  · rfl
  · split
    · rfl
    · rw [Grid.writeSame landed]

theorem manMover (legal : Legal board c.man m) (man : m.cell board 0 = c.man) :
    m.dirX = c.forward ∧ (m.distance = 1 ∨ m.distance = 2 ∧ m.jumped = some 1) := by
  rcases legal.mover with ⟨d, player, _, forward, reach⟩ | king
  · have same : d = c := (Colour.manUnique player).symm
    subst same
    exact ⟨forward, reach⟩
  · unfold KingStep at king
    rw [man] at king
    exact absurd king c.manNoKing

theorem wrongDirection (c : Colour) (a b : Int) :
    ((c.man = charX ∧ b ≤ a) ∨ (c.man = charO ∧ b ≥ a)) ↔ ¬ 0 < (b - a) * c.forward := by
  cases c <;> simp [Colour.man, Colour.forward, charX, charO]

theorem manDirected (legal : Legal board c.man m) (man : m.cell board 0 = c.man) :
    0 < (m.vars.x2 - m.vars.x1) * c.forward := by
  have along : m.vars.x2 - m.vars.x1 = m.distance * c.forward := by
    simp [Ply.vars, Ply.row, (manMover legal man).1]
  have square : c.forward * c.forward = 1 := by cases c <;> rfl
  rw [along, Int.mul_assoc, square, Int.mul_one]
  exact Int.natCast_pos.mpr legal.diagonal.moves

theorem promoteLate (player : Byte) (diagonal : Diagonal m) (board : Board) (after : Board → Board)
    (frame : ∀ b value, after (write b (m.row m.distance) (m.column m.distance) value) =
      write (after b) (m.row m.distance) (m.column m.distance) value) :
    promote (after (write board (m.row m.distance) (m.column m.distance) player)) player m.vars =
      .ok (after (write board (m.row m.distance) (m.column m.distance)
        (crowned player (m.row m.distance)))) := by
  have landed : get (after (write board (m.row m.distance) (m.column m.distance) player))
      (m.row m.distance) (m.column m.distance) = player := by
    rw [frame, getWrite _ diagonal.target, if_pos ⟨rfl, rfl⟩]
  rw [promoteCrowned diagonal landed, frame, Grid.writeAgain, frame]

theorem manStepResult (diagonal : Diagonal m) (man : m.cell board 0 = player)
    (alone : m.jumped = none) :
    (do let moved ← store board m.vars.x2 m.vars.y2 player
        let cleared ← store moved m.vars.x1 m.vars.y1 blank
        let crowned ← promote cleared player m.vars
        .ok (accepted m.vars crowned)) = performed board m := by
  have landing : store board m.vars.x2 m.vars.y2 player =
      .ok (write board (m.row m.distance) (m.column m.distance) player) :=
    storeInside diagonal.target board player
  have leaving (b : Board) : store b m.vars.x1 m.vars.y1 blank = .ok (write b m.x m.y blank) :=
    storeInside diagonal.source b blank
  have crowning := promoteLate player diagonal board (fun b => write b m.x m.y blank)
    (fun b value => Grid.writeSwap b (sourceNotTarget diagonal) value blank)
  simp only [landing, leaving, okBind, crowning, performed, Ply.result, Ply.moved, alone, man]

theorem manJumpResult (diagonal : Diagonal m) (man : m.cell board 0 = player)
    (two : m.distance = 2) (jump : m.jumped = some 1) :
    (do let moved ← store board m.vars.x2 m.vars.y2 player
        let cleared ← store moved m.vars.x1 m.vars.y1 blank
        let captured ← store cleared (m.row 1) (m.column 1) blank
        let crowned ← promote captured player m.vars
        .ok (accepted m.vars crowned)) = performed board m := by
  have landing : store board m.vars.x2 m.vars.y2 player =
      .ok (write board (m.row m.distance) (m.column m.distance) player) :=
    storeInside diagonal.target board player
  have leaving (b : Board) : store b m.vars.x1 m.vars.y1 blank = .ok (write b m.x m.y blank) :=
    storeInside diagonal.source b blank
  have capturing (b : Board) : store b (m.row 1) (m.column 1) blank =
      .ok (write b (m.row 1) (m.column 1) blank) :=
    storeInside (diagonalInside diagonal (by omega)) b blank
  have middle : ¬ (m.row m.distance = m.row 1 ∧ m.column m.distance = m.column 1) :=
    fun same => rowsApart diagonal (by omega) same.1
  have crowning := promoteLate player diagonal board
    (fun b => write (write b m.x m.y blank) (m.row 1) (m.column 1) blank)
    (fun b value => by
      rw [Grid.writeSwap b (sourceNotTarget diagonal), Grid.writeSwap _ middle])
  simp only [landing, leaving, capturing, okBind, crowning, performed, Ply.result, Ply.moved, jump, man]

theorem middleSquare (diagonal : Diagonal m) (two : m.distance = 2) :
    (m.vars.x1 + m.vars.x2).tdiv 2 = m.row 1 ∧ (m.vars.y1 + m.vars.y2).tdiv 2 = m.column 1 := by
  have inside := diagonalInside diagonal (k := 1) (by omega)
  have row : m.vars.x1 + m.vars.x2 = m.row 1 * 2 := by
    simp only [Ply.vars, Ply.row, two]; omega
  have column : m.vars.y1 + m.vars.y2 = m.column 1 * 2 := by
    simp only [Ply.vars, Ply.column, two]; omega
  rw [row, column, Int.mul_tdiv_cancel _ (by decide), Int.mul_tdiv_cancel _ (by decide)]
  exact ⟨rfl, rfl⟩

theorem foeOfMan (c : Colour) : foe c.man = if c.man = charX then charO else charX := by
  cases c <;> rfl

theorem forwardSign {a : Int} (directed : 0 < a * c.forward) : a.sign = c.forward := by
  cases c with
  | x => exact Int.sign_eq_one_of_pos (by simpa [Colour.forward] using directed)
  | o => exact Int.sign_eq_neg_one_of_neg (by simpa [Colour.forward] using directed)

theorem manReached {v : Coordinates} (man : get board v.x1 v.y1 = c.man) (vars : m.vars = v)
    (legal : Legal board c.man m) :
    0 < (v.x2 - v.x1) * c.forward ∧ (v.x2 - v.x1).natAbs = m.distance ∧
      (v.y2 - v.y1).natAbs = m.distance ∧ (m.distance = 1 ∨ m.distance = 2 ∧ m.jumped = some 1) := by
  have owner := ownerAt man vars
  subst vars
  have length := diagonalLength legal.diagonal
  exact ⟨manDirected legal owner, length.1, length.2, (manMover legal owner).2⟩

section Verdicts
variable {v : Coordinates} (source : Inside 8 8 v.x1 v.y1) (target : Inside 8 8 v.x2 v.y2)
  (man : get board v.x1 v.y1 = c.man) (empty : get board v.x2 v.y2 = blank)
include source target man empty

theorem alongLegal {jumped : Option Nat} (directed : 0 < (v.x2 - v.x1) * c.forward)
    (slope : (v.x2 - v.x1).natAbs = (v.y2 - v.y1).natAbs)
    (reach : (v.x2 - v.x1).natAbs = 1 ∨ (v.x2 - v.x1).natAbs = 2 ∧ jumped = some 1)
    (passage : Passage board (Ply.along v jumped)) :
    Legal board c.man (Ply.along v jumped) := by
  have moves : v.x2 ≠ v.x1 := by
    intro same
    rw [same, Int.sub_self, Int.zero_mul] at directed
    exact absurd directed (by decide)
  have vars := alongVars slope jumped
  have landing : (Ply.along v jumped).cell board (Ply.along v jumped).distance = blank := by
    have row := congrArg Coordinates.x2 vars
    have column := congrArg Coordinates.y2 vars
    change get board (Ply.along v jumped).vars.x2 (Ply.along v jumped).vars.y2 = blank
    rw [row, column]
    exact empty
  exact ⟨alongDiagonal slope moves source target jumped, landing, passage,
    .inl ⟨c, rfl, ownerAt man vars, forwardSign directed, reach⟩⟩

theorem manStepVerdict (directed : 0 < (v.x2 - v.x1) * c.forward)
    (dx : (v.x2 - v.x1).natAbs = 1) (dy : (v.y2 - v.y1).natAbs = 1) :
    Verdict board c.man v (manBranch board c.man v 1 1) := by
  have slope : (v.x2 - v.x1).natAbs = (v.y2 - v.y1).natAbs := dx.trans dy.symm
  have vars := alongVars slope none
  have passage : Passage board (Ply.along v none) := stepPassage dx rfl
  have legal := alongLegal source target man empty directed slope (.inl dx) passage
  have result := manStepResult legal.diagonal (ownerAt man vars) rfl
  refine .inl ⟨_, vars, legal, ?_⟩
  unfold manBranch
  rw [if_neg (fun wrong => (wrongDirection c _ _).mp wrong directed), if_pos ⟨rfl, rfl⟩]
  rwa [vars] at result

theorem manJumpVerdict (directed : 0 < (v.x2 - v.x1) * c.forward)
    (dx : (v.x2 - v.x1).natAbs = 2) (dy : (v.y2 - v.y1).natAbs = 2) :
    Verdict board c.man v (manBranch board c.man v 2 2) := by
  have slope : (v.x2 - v.x1).natAbs = (v.y2 - v.y1).natAbs := dx.trans dy.symm
  have vars := alongVars slope (some 1)
  have length : (Ply.along v (some 1)).distance = 2 := dx
  have diagonal := alongDiagonal slope (by omega) source target (some 1)
  have middle := middleSquare diagonal length
  rw [vars] at middle
  have inside := diagonalInside diagonal (k := 1) (by omega)
  unfold manBranch
  rw [if_neg (fun wrong => (wrongDirection c _ _).mp wrong directed), if_neg (by decide),
    if_pos ⟨rfl, rfl⟩]
  simp only [middle.1, middle.2, loadInside inside, okBind, ← foeOfMan]
  split
  · rename_i found
    have passage : Passage board (Ply.along v (some 1)) :=
      middlePassage length rfl (by rw [ownerAt man vars]; exact found)
    have legal := alongLegal source target man empty directed slope (.inr ⟨dx, rfl⟩) passage
    have result := manJumpResult legal.diagonal (ownerAt man vars) length rfl
    refine .inl ⟨_, vars, legal, ?_⟩
    rwa [vars] at result
  · rename_i missing
    refine refusedRejected (fun m vars' legal => missing ?_)
    obtain ⟨_, reached, _, near | far⟩ := manReached man vars' legal
    · omega
    · have square := middleSquare legal.diagonal far.1
      have jumped := (legal.passage.jump 1 far.2).2.2
      rw [vars', middle.1, middle.2] at square
      rw [ownerAt man vars'] at jumped
      rw [square.1, square.2]
      exact jumped

theorem manVerdict :
    Verdict board c.man v
      (manBranch board c.man v (v.x2 - v.x1).natAbs (v.y2 - v.y1).natAbs) := by
  by_cases directed : 0 < (v.x2 - v.x1) * c.forward
  · rcases Classical.em ((v.x2 - v.x1).natAbs = 1 ∧ (v.y2 - v.y1).natAbs = 1) with ⟨dx, dy⟩ | notOne
    · rw [dx, dy]
      exact manStepVerdict source target man empty directed dx dy
    · rcases Classical.em ((v.x2 - v.x1).natAbs = 2 ∧ (v.y2 - v.y1).natAbs = 2) with ⟨dx, dy⟩ | notTwo
      · rw [dx, dy]
        exact manJumpVerdict source target man empty directed dx dy
      · unfold manBranch
        rw [if_neg (fun wrong => (wrongDirection c _ _).mp wrong directed), if_neg (by omega),
          if_neg (by omega)]
        refine refusedRejected (fun m vars legal => ?_)
        obtain ⟨_, dx, dy, reach⟩ := manReached man vars legal
        omega
  · unfold manBranch
    rw [if_pos ((wrongDirection c _ _).mpr directed)]
    exact refusedRejected (fun m vars legal => directed (manReached man vars legal).1)

end Verdicts

end Man

section Iteration
variable {board : Board} {player : Byte}

theorem kingVerdictAt {v : Coordinates} {piece : Byte} (source : Inside 8 8 v.x1 v.y1)
    (target : Inside 8 8 v.x2 v.y2) (here : get board v.x1 v.y1 = piece)
    (king : piece = charD ∨ piece = charQ) (empty : get board v.x2 v.y2 = blank) :
    Verdict board player v (kingBranch board piece v (v.x2 - v.x1).natAbs (v.y2 - v.y1).natAbs) := by
  by_cases slope : (v.x2 - v.x1).natAbs = (v.y2 - v.y1).natAbs
  · have moves : v.x2 ≠ v.x1 := by
      intro same
      have column : v.y2 = v.y1 := by omega
      rw [same, column, here] at empty
      rcases king with rfl | rfl <;> exact absurd empty (by decide)
    have diagonal := alongDiagonal slope moves source target
    have vars := alongVars slope
    have owner (j : Option Nat) : (Ply.along v j).cell board 0 = piece := ownerAt here (vars j)
    have standing (j : Option Nat) : KingStep board (Ply.along v j) := by
      unfold KingStep
      rw [owner]
      exact king
    have branch : kingBranch board ((Ply.along v none).cell board 0) (Ply.along v none).vars
        (Ply.along v none).distance (Ply.along v none).distance =
        kingBranch board piece v (v.x2 - v.x1).natAbs (v.y2 - v.y1).natAbs := by
      rw [owner, vars, ← slope]
      rfl
    rcases kingVerdict (diagonal none) (standing none) with ⟨j, passage, performs⟩ | ⟨never, refuses⟩
    · have landing : (Ply.along v j).cell board (Ply.along v j).distance = blank := by
        change get board (Ply.along v j).vars.x2 (Ply.along v j).vars.y2 = blank
        rw [vars]
        exact empty
      exact .inl ⟨Ply.along v j, vars j, ⟨diagonal j, landing, passage, .inr (standing j)⟩,
        branch.symm.trans performs⟩
    · refine .inr ⟨fun m vars' legal => never m.jumped ?_, branch ▸ refuses⟩
      have same := alongOfVars legal.diagonal
      rw [vars'] at same
      change Passage board (Ply.along v m.jumped)
      rw [same]
      exact legal.passage
  · refine .inr ⟨fun m vars legal => slope ?_, ?_⟩
    · subst vars
      have length := diagonalLength legal.diagonal
      rw [length.1, length.2]
    · have apart : ¬ (((v.x2 - v.x1).natAbs : Int) = (v.y2 - v.y1).natAbs) := by omega
      unfold kingBranch
      rw [if_neg apart]
      exact ⟨_, rfl, rfl, rfl⟩

theorem moverAt {v : Coordinates} {m : Ply} (vars : m.vars = v) (legal : Legal board player m) :
    (∃ c : Colour, player = c.man ∧ get board v.x1 v.y1 = c.man) ∨
      get board v.x1 v.y1 = charD ∨ get board v.x1 v.y1 = charQ := by
  subst vars
  have here : m.cell board 0 = get board m.vars.x1 m.vars.y1 := by
    rw [Ply.cell, Ply.rowZero, Ply.columnZero]
    rfl
  rw [← here]
  rcases legal.mover with ⟨c, same, man, _⟩ | king
  · exact .inl ⟨c, same, man⟩
  · exact .inr king

theorem ownMan {piece : Byte} (man : piece = charX ∨ piece = charO)
    (mine : ¬ (piece ≠ player ∧ piece ≠ charD ∧ piece ≠ charQ)) :
    ∃ c : Colour, piece = c.man ∧ player = c.man := by
  have same : piece = player := by
    by_contra other
    rcases man with rfl | rfl <;> exact mine ⟨other, by decide, by decide⟩
  rcases man with man | man
  · exact ⟨.x, man, same.symm.trans man⟩
  · exact ⟨.o, man, same.symm.trans man⟩

theorem movePieceVerdict {v : Coordinates} (source : Inside 8 8 v.x1 v.y1)
    (target : Inside 8 8 v.x2 v.y2) : Verdict board player v (movePiece board player v) := by
  simp only [movePiece, loadInside source, loadInside target, okBind]
  split
  · rename_i foreign
    refine refusedRejected (fun m vars legal => ?_)
    rcases moverAt vars legal with ⟨c, same, man⟩ | king | king
    · exact foreign.1 (man.trans same.symm)
    · exact foreign.2.1 king
    · exact foreign.2.2 king
  · rename_i mine
    split
    · rename_i occupied
      refine refusedRejected (fun m vars legal => occupied ?_)
      subst vars
      exact legal.empty
    · rename_i empty
      have landed := not_not.mp empty
      split
      · rename_i man
        obtain ⟨c, here, rfl⟩ := ownMan man mine
        exact manVerdict source target here landed
      · rename_i notMan
        split
        · rename_i king
          exact kingVerdictAt source target rfl king landed
        · rename_i notKing
          refine refusedRejected (fun m vars legal => ?_)
          rcases moverAt vars legal with ⟨c, _, here⟩ | king
          · exact notMan (by rw [here]; exact c.manLetter)
          · exact notKing king

/- `pass` on typed coordinates: the range check guards the squares, so what is left
is the verdict on the decremented ones. -/
theorem passVerdict (board : Board) (player : Byte) (v : Coordinates) :
    (∃ m : Ply, m.typed = v ∧ Legal board player m ∧ pass board player v = performed board m) ∨
    ((∀ m : Ply, m.typed = v → ¬ Legal board player m) ∧ Refuses board (pass board player v)) := by
  unfold MakeMove.pass
  split
  · rename_i outside
    refine .inr ⟨fun m typed legal => ?_, _, rfl, rfl, rfl⟩
    subst typed
    have source := legal.diagonal.source
    have target := legal.diagonal.target
    unfold Inside at source target
    simp only [OutOfRange, Ply.typed, boardSize] at outside
    omega
  · rename_i inRange
    simp only [OutOfRange, boardSize] at inRange
    have decremented (m : Ply) : m.typed = v ↔ m.vars = ⟨v.x1 - 1,v.y1 - 1,v.x2 - 1,v.y2 - 1⟩ := by
      cases v
      simp only [Ply.typed, Ply.vars, Coordinates.mk.injEq]
      omega
    simp only [decremented]
    exact movePieceVerdict (by simp only [Inside]; omega) (by simp only [Inside]; omega)

end Iteration

end Warcaby.Rule
